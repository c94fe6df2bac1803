import Stencil.Inspect.Entry
import Stencil.Proofs.Placeholder.TagNames
import Stencil.Proofs.Value.Places

/-!
# The leaves of an inspection

An inspection walks through a tree and carries the place of each text along as a written location.
What it visits are the texts of the tree at their places, and it fails as the first placeholder in
them that cannot be read. That is the one with the first name that is none of a tag.

## Main definitions

* `Stencil.Inspect.locationBelow` — the location that the walk carries to a place.
* `Stencil.Inspect.names` — the names of tags in a tree, in the order in which they are read.

## Main results

* `Stencil.Inspect.leaves_eq` — the leaves are the texts of the tree.
* `Stencil.Inspect.failure?_entries` — the failure of an inspection.
* `Stencil.Inspect.exists_entries_eq_ok_iff`, `Stencil.Inspect.entries_eq_error_iff` — an inspection
  fails at the first unknown name.
-/

set_option autoImplicit false

namespace Stencil.Inspect

/-- The location of the node at a place below a node with a location. -/
def locationBelow (parent : List Char) : Place → List Char
  | [] => parent
  | step :: place => locationBelow (childLocation parent step.text) place

/-- The leaf that a placed text is, below a node with a location. -/
def Leaf.ofPlaced (parent : List Char) (t : Value.PlacedText) : Leaf :=
  ⟨locationBelow parent t.place, t.text.toList⟩

/-- The leaves of items, by their positions. -/
theorem leavesItems_eq (parent : List Char) (i : Nat) (items : List Value) :
    leavesItems parent i items
      = (items.zipIdx i).flatMap fun c =>
        leaves (childLocation parent (Step.position c.2).text) c.1 := by
  induction items generalizing i with
  | nil => rfl
  | cons v rest ih =>
    rw [leavesItems, ih, List.zipIdx_cons, List.flatMap_cons]
    rfl

/-- The leaves of the values of members, by their keys. -/
theorem leavesMembers_eq (parent : List Char) (members : Members) :
    leavesMembers parent members
      = members.flatMap fun m => leaves (childLocation parent (Step.key m.1).text) m.2 := by
  induction members with
  | nil => rfl
  | cons m rest ih =>
    rw [leavesMembers, ih, List.flatMap_cons]
    rfl

/-- The leaves of a value that is no text itself are those of its children. -/
theorem leaves_of_kind {v : Value} (h : v.kind ≠ .string) (parent : List Char) :
    leaves parent v
      = v.children.flatMap fun c => leaves (childLocation parent c.1.text) c.2 := by
  cases v with
  | str s => exact absurd rfl h
  | arr items => rw [leaves, leavesItems_eq, Value.children, List.flatMap_map]
  | obj members => rw [leaves, leavesMembers_eq, Value.children, List.flatMap_map]
  | null | bool | num => rfl

/-- The leaves of a tree are its texts, at the locations of their places. -/
theorem leaves_eq (parent : List Char) (v : Value) :
    leaves parent v = v.placedTexts.map (Leaf.ofPlaced parent) := by
  induction v using Value.childInduction generalizing parent with
  | text s =>
    rw [leaves, Value.placedTexts]
    rfl
  | other v hkind ih =>
    rw [leaves_of_kind hkind, Value.placedTexts_of_kind hkind, List.map_flatMap]
    refine List.flatMap_congr fun c hc => ?_
    rw [ih c hc, List.map_map]
    rfl

/-! ## Failures -/

/-- An entry fails as its body does. -/
theorem failure?_entry (leaf : Leaf) (body : List Char) :
    failure? (entry leaf body) = failure? (Placeholder.parse body) :=
  failure?_bind_pure _ _

/-- An inspection fails as the first placeholder that cannot be read. -/
theorem failure?_entries (node : Value) :
    failure? (entries node)
      = node.placedTexts.findSome? fun t =>
        (Template.segments t.text.toList).bodies.findSome? fun b =>
          failure? (Placeholder.parse b) := by
  rw [entries, failure?_mapM, findSome?_flatMap, leaves_eq, List.findSome?_map]
  refine congrArg (List.findSome? · _) (funext fun t => ?_)
  show List.findSome? _ (List.map _ _) = _
  rw [List.findSome?_map]
  exact congrArg (List.findSome? · _) (funext fun b => failure?_entry _ b)

/-- The names of tags that the placeholders of a tree write, in the order in which they are read. -/
def names (node : Value) : List (List Char) :=
  node.placedTexts.flatMap fun t => (Template.segments t.text.toList).bodies.flatMap fun b =>
    Placeholder.fallbackNames b ++ Placeholder.clauseNames b

/-- An inspection fails as the first name that is none of a tag. -/
theorem failure?_entries_eq_names (node : Value) :
    failure? (entries node)
      = (names node).findSome? fun n => failure? (Placeholder.parseTag n) := by
  rw [failure?_entries, names, findSome?_flatMap]
  refine congrArg (List.findSome? · _) (funext fun t => ?_)
  rw [findSome?_flatMap]
  exact congrArg (List.findSome? · _) (funext Placeholder.failure?_parse)

/-- An inspection succeeds exactly when all names are those of tags. -/
theorem exists_entries_eq_ok_iff (node : Value) :
    (∃ es, entries node = .ok es) ↔ ∀ n ∈ names node, Tag.Named Tag.all n := by
  rw [← failure?_eq_none_iff, failure?_entries_eq_names, List.findSome?_eq_none_iff]
  simp only [Placeholder.failure?_parseTag_eq_none_iff]

/-- An inspection refuses the first name that is none of a tag. -/
theorem entries_eq_error_iff {node : Value} {e : RenderError} :
    entries node = .error e ↔
      ∃ before n after, names node = before ++ n :: after ∧ (∀ m ∈ before, Tag.Named Tag.all m)
        ∧ ¬ Tag.Named Tag.all n ∧ e = .unknownTag (String.ofList n) := by
  rw [← Placeholder.findSome?_failure?_parseTag_eq_some_iff, ← failure?_entries_eq_names,
    failure?_eq_some_iff]

end Stencil.Inspect
