import Stencil.Yaml.Node

/-!
# Reading YAML

The nodes of a YAML document from its tokens, by descent: each function takes the tokens of one
node, one item or one member.

## Main definitions

* `Stencil.Yaml.Reader` — the tokens that are left, and what the ones before have named.
* `Stencil.Yaml.node` — a node in block style or between brackets.
* `Stencil.Yaml.Document.ofTokens?` — the document that tokens write.
* `Stencil.Yaml.read?` — the value of a YAML document.

## Implementation notes

The descent counts down from more than four steps for each token. Each loop and each node inside it
takes at least one token, so the steps never run out before the tokens do.
-/

set_option autoImplicit false

namespace Stencil.Yaml

/-- The tokens that are left, and what the ones before have named. -/
structure Reader where
  tokens : List Token
  handles : List Handle := standardHandles
  /-- The names of nodes, each with the number that a reference by it has. -/
  names : List (List Char × Nat) := []
  /-- The order in which the latest node with a number has started, for each number. -/
  latest : List (Nat × Nat) := []
  /-- The finished nodes that have names, by the order in which they have started. -/
  finished : List (Nat × Node) := []
  /-- The number of nodes with names that have started. -/
  started : Nat := 0
  /-- The size of the nodes so far, as a document counts it. -/
  size : Nat := 0

/-- The number by which a node counts for the size of a document, apart from the nodes inside it: a
collection has a start and an end. -/
def Node.ends : Node → Nat
  | .text _ _ _ | .alias _ => 1
  | .sequence _ _ | .mapping _ _ => 2

/-- A step that takes tokens or fails. -/
abbrev Read := StateT Reader Option

namespace Read

/-- The next token. -/
def peek : Read (Option Token) := return (← get).tokens.head?

/-- Moves past the next token. -/
def skip : Read Unit := modify fun r => { r with tokens := r.tokens.drop 1 }

/-- The next token is one of these. -/
def isAt (ts : List Token) : Read Bool := return (← peek).any ts.contains

/-- Moves past the next token if it is `t`. -/
def accept (t : Token) : Read Bool := do
  let found ← isAt [t]
  if found then skip
  return found

/-- Moves past the next token, which must be `t`. -/
def expect (t : Token) : Read Unit := do
  if !(← accept t) then failure

/-- Counts `n` more for the size of the document. -/
def grow (n : Nat) : Read Unit := modify fun r => { r with size := r.size + n }

/-! ## Names and tags -/

/-- The name and tag in front of a node. -/
structure Properties where
  name : Option (List Char) := none
  tag : Option TagText := none

/-- A name, if there is one. -/
def name : Read (Option (List Char)) := do
  match ← peek with
  | some (.anchor s) => skip; return some s
  | _ => return none

/-- A tag, if there is one. -/
def tag : Read (Option TagText) := do
  match ← peek with
  | some (.tag t) => skip; return some t
  | _ => return none

/-- The name and tag in front of a node, in either order. -/
def properties : Read Properties := do
  match ← name with
  | some s => return ⟨some s, ← tag⟩
  | none =>
    match ← tag with
    | some t => return ⟨← name, some t⟩
    | none => return {}

/-- What a written tag says, if anything. Its handle must be known. -/
def meaningOf : Option TagText → Read (Option Tag)
  | none => return none
  | some t => do
    let bytes ← t.bytes? (← get).handles
    return Tag.ofBytes? bytes

/-- Gives a number to the name of a node that starts here, and answers the order of its start. The
number is that of different names in front: a name that is given again shares it with the next
new name, and it stands for the latest of their nodes. -/
def start : Option (List Char) → Read (Option Nat)
  | none => return none
  | some s => do
    let r ← get
    let number := r.names.length
    set { r with
      names := (s, number) :: r.names.filter (·.1 ≠ s)
      latest := (number, r.started) :: r.latest
      started := r.started + 1 }
    return some r.started

/-- Counts a finished node, and keeps it if it has a name. -/
def finish (order : Option Nat) (node : Node) : Read Node := do
  grow node.ends
  if let some order := order then
    modify fun r => { r with finished := (order, node) :: r.finished }
  return node

/-- A reference to the node with a name, which must have started. -/
def reference (s : List Char) : Read Node := do
  grow 1
  let number ← (← get).names.lookup s
  return .alias number

end Read

open Read

/-- A node without any text. -/
def emptyNode : Read Node := do
  grow 1
  return .empty

/-- A node without any text, which must have a name or a tag. -/
def absent (p : Properties) (tag : Option Tag) : Read Node := do
  if p.name.isNone && p.tag.isNone then failure
  return .text tag true []

/-! ## Nodes -/

mutual

/-- A node. Blocks are allowed if `block`, and items without a block of their own if `items`. With
a name or a tag in front, the node may have no text. -/
def node : (steps : Nat) → (block items : Bool) → Read Node
  | 0, _, _ => failure
  | n + 1, block, items => do
    if let some (.alias s) ← peek then
      skip
      return ← reference s
    let p ← properties
    let tag ← meaningOf p.tag
    let order ← start p.name
    let node ← match ← peek with
      | some (.text plain s) => skip; pure (.text tag plain s)
      | some .flowSequence => skip; pure (.sequence tag (← flowItems n true []))
      | some .flowMapping => skip; pure (.mapping tag (← flowMembers n true []))
      | some .blockSequence =>
        if block then skip; pure (.sequence tag (← blockItems n []))
        else absent p tag
      | some .blockMapping =>
        if block then skip; pure (.mapping tag (← blockMembers n []))
        else absent p tag
      | some .item =>
        if items then pure (.sequence tag (← looseItems n [])) else absent p tag
      | _ => absent p tag
    finish order node

/-- A node, or one without any text in front of one of these tokens. -/
def nodeBefore : (steps : Nat) → (ends : List Token) → (block items : Bool) → Read Node
  | 0, _, _, _ => failure
  | n + 1, ends, block, items => do
    if ← isAt ends then emptyNode else node n block items

/-- The items up to the end of a block. -/
def blockItems : (steps : Nat) → List Node → Read (List Node)
  | 0, _ => failure
  | n + 1, done => do
    if ← accept .blockEnd then return done.reverse
    expect .item
    blockItems n ((← nodeBefore n [.item, .blockEnd] true false) :: done)

/-- The items of a member at the column of its key, which end where no hyphen follows. -/
def looseItems : (steps : Nat) → List Node → Read (List Node)
  | 0, _ => failure
  | n + 1, done => do
    if ← accept .item then
      looseItems n ((← nodeBefore n [.item, .key, .value, .blockEnd] true false) :: done)
    else return done.reverse

/-- The members up to the end of a block. -/
def blockMembers : (steps : Nat) → List (Node × Node) → Read (List (Node × Node))
  | 0, _ => failure
  | n + 1, done => do
    if ← accept .blockEnd then return done.reverse
    expect .key
    let key ← nodeBefore n [.key, .value, .blockEnd] true true
    let value ← if ← accept .value then nodeBefore n [.key, .value, .blockEnd] true true
      else emptyNode
    blockMembers n ((key, value) :: done)

/-- The items up to a closing bracket. An item may be one member of a mapping; where its key is
missing, the token in its place is lost. -/
def flowItems : (steps : Nat) → (first : Bool) → List Node → Read (List Node)
  | 0, _, _ => failure
  | n + 1, first, done => do
    if ← accept .flowSequenceEnd then return done.reverse
    if !first then
      expect .comma
      if ← accept .flowSequenceEnd then return done.reverse
    if ← accept .key then
      grow 2
      let key ← if ← isAt [.value, .comma, .flowSequenceEnd] then skip; emptyNode
        else node n false false
      let value ← if ← accept .value then nodeBefore n [.comma, .flowSequenceEnd] false false
        else emptyNode
      flowItems n false (.mapping none [(key, value)] :: done)
    else flowItems n false ((← node n false false) :: done)

/-- The members up to a closing brace. Without a mark in front, what stands there is a key without
a value. -/
def flowMembers : (steps : Nat) → (first : Bool) → List (Node × Node) →
    Read (List (Node × Node))
  | 0, _, _ => failure
  | n + 1, first, done => do
    if ← accept .flowMappingEnd then return done.reverse
    if !first then
      expect .comma
      if ← accept .flowMappingEnd then return done.reverse
    if ← accept .key then
      let key ← nodeBefore n [.value, .comma, .flowMappingEnd] false false
      let value ← if ← accept .value then nodeBefore n [.comma, .flowMappingEnd] false false
        else emptyNode
      flowMembers n false ((key, value) :: done)
    else
      let key ← node n false false
      flowMembers n false ((key, ← emptyNode) :: done)

end

/-! ## Documents -/

/-- The versions of documents that are read. -/
def isKnownVersion (major minor : Nat) : Bool := major == 1 && (minor == 1 || minor == 2)

/-- The handles of directives, at most one directive for each and at most one version among them,
and the tokens behind the directives. -/
def directives? (versioned : Bool) (done : List Handle) :
    List Token → Option (List Handle × List Token)
  | .version major minor :: r =>
    if versioned || !isKnownVersion major minor then none else directives? true done r
  | .handle h :: r =>
    if done.any (·.name = h.name) then none else directives? versioned (h :: done) r
  | r => some (done, r)

/-- The root of a document. Behind the mark of its start it may have no text. -/
def rootNode (steps : Nat) : Read Node := do
  let before := (← get).tokens
  let (handles, tokens) ← directives? false [] before
  modify fun r => { r with tokens := tokens, handles := handles ++ standardHandles }
  if ← accept .documentStart then
    match ← peek with
    | none | some .documentStart | some .documentEnd => emptyNode
    | some (.version _ _) | some (.handle _) => emptyNode
    | _ => node steps true false
  else if tokens.length = before.length then node steps true false
  else failure

/-- The document that tokens write, which must be the only one. Without tokens it is a node without
any text. -/
def Document.ofTokens? (ts : List Token) : Option Document := do
  if ts = [] then return { root := .empty, named := [], size := 1 }
  let (root, r) ← (rootNode (4 * ts.length + 16)).run { tokens := ts }
  if r.tokens.any (· ≠ .documentEnd) then none
  let named := r.latest.filterMap fun (number, order) =>
    (r.finished.lookup order).map (number, ·)
  return { root := root, named := named, size := r.size }

/-- The value of a YAML document. -/
def read? (s : List Char) : Option Value := do
  if !s.all isAllowed then none
  (← Document.ofTokens? (← tokens? (unixLines s))).value?

end Stencil.Yaml
