import Stencil.Merge

/-!
# Merge directives

A member with the merge key is a directive: it is removed, and the objects it holds are laid over
the other members. A directive that comes in this way is applied in turn, until none is left.
Parents are settled before their children, and what lies below the depth limit is dropped.

## Main definitions

* `Stencil.Tree.sources` — the merge sources of a directive.
* `Stencil.Tree.round` — the members after one directive has been applied.
* `Stencil.Tree.settle` — the members after all directives have been applied.
* `Stencil.Tree.applyMerges?` — a value with the directives applied at every depth.

## Main results

* `Stencil.Tree.nodes_round_lt` — applying a directive leaves fewer nodes.
* `Stencil.Tree.get?_settle` — no directive is left.
-/

set_option autoImplicit false

namespace Stencil.Tree

/-- The merge sources of a directive: the items of an array, or the one value. -/
def sources : Value → List Value
  | .arr items => items
  | v => [v]

/-- The members after the directive found under the merge key has been applied once. -/
def round (options : Options) (members : Members) (directive : Value) : Members :=
  Members.mergeSources options.arrays (Members.erase members options.mergeKey) (sources directive)

theorem nodes_round_lt {options : Options} {members : Members} {directive : Value}
    (h : Members.get? members options.mergeKey = some directive) :
    Members.nodes (round options members directive) < Members.nodes members := by
  have herase := Members.nodes_erase_add_le h
  unfold round sources
  split
  · next items =>
    have hsources := Members.nodes_mergeSources_le options.arrays
      (Members.erase members options.mergeKey) items
    simp only [Value.nodes] at herase
    omega
  · have hsource := Members.nodes_mergeSource_le options.arrays
      (Members.erase members options.mergeKey) directive
    exact Nat.lt_of_lt_of_le hsource herase

/-- The members after all directives under the merge key have been applied, those that come in with
merge sources included. -/
def settle (options : Options) (members : Members) : Members :=
  match h : Members.get? members options.mergeKey with
  | some directive =>
    have := nodes_round_lt h
    settle options (round options members directive)
  | none => members
termination_by Members.nodes members

theorem get?_settle (options : Options) (members : Members) :
    Members.get? (settle options members) options.mergeKey = none := by
  fun_induction settle options members with
  | case1 members directive h _ ih => exact ih
  | case2 members h => exact h

/-- A value with the directives applied at every depth, when `levels` levels are left for it; what
lies deeper is dropped. -/
def applyMerges? (options : Options) : (levels : Nat) → Value → Option Value
  | 0, _ => none
  | levels + 1, .arr items => some (.arr (items.filterMap (applyMerges? options levels)))
  | levels + 1, .obj members =>
    some (.obj ((settle options members).filterMap fun (key, v) =>
      (applyMerges? options levels v).map fun v => (key, v)))
  | _ + 1, v => some v

end Stencil.Tree
