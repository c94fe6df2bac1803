import Stencil.Options
import Stencil.Value.Size

/-!
# Deep merges

A merge lays one value over another: objects merge member by member, two arrays meet as the policy
says, and otherwise the upper value replaces the lower one.

## Main definitions

* `Stencil.Value.merge` — the second value laid over the first.
* `Stencil.Members.merge` — members laid over members.
* `Stencil.Members.mergeSources` — the objects of a list laid over members one after the other.

## Main results

* `Stencil.Value.nodes_merge_le`, `Stencil.Members.nodes_merge_le`,
  `Stencil.Members.nodes_mergeSources_le` — a merge has no more nodes than its parts together.
-/

set_option autoImplicit false

namespace Stencil

mutual

/-- The second value laid over the first. -/
def Value.merge (policy : ArrayPolicy) (base : Value) : (upper : Value) → Value
  | .obj upper =>
    match base with
    | .obj members => .obj (Members.merge policy members upper)
    | _ => .obj upper
  | .arr upper =>
    match base, policy with
    | .arr items, .concat => .arr (items ++ upper)
    | _, _ => .arr upper
  | upper => upper

/-- Members laid over members: a key that is there keeps its place, a new one goes last. -/
def Members.merge (policy : ArrayPolicy) (base : Members) :
    (upper : List (String × Value)) → Members
  | [] => base
  | (key, v) :: rest =>
    match Members.get? base key with
    | some old => Members.merge policy (Members.set base key (Value.merge policy old v)) rest
    | none => Members.merge policy (Members.set base key v) rest

end

/-- The members with one source laid over them; a source that is no object has no effect. -/
def Members.mergeSource (policy : ArrayPolicy) (base : Members) : Value → Members
  | .obj upper => Members.merge policy base upper
  | _ => base

/-- The members with the sources laid over them one after the other. -/
def Members.mergeSources (policy : ArrayPolicy) (base : Members) (sources : List Value) :
    Members :=
  sources.foldl (Members.mergeSource policy) base

/-! ## Node counts -/

mutual

theorem Value.nodes_merge_le (policy : ArrayPolicy) (base : Value) :
    (upper : Value) → (Value.merge policy base upper).nodes ≤ base.nodes + upper.nodes
  | .obj upper => by
    cases base with
    | obj members =>
      have := Members.nodes_merge_le policy members upper
      simp only [Members.nodes] at this
      simp only [Value.merge, Value.nodes]
      omega
    | _ => simp [Value.merge, Value.nodes]
  | .arr upper => by
    cases base with
    | arr items =>
      cases policy with
      | concat => simp only [Value.merge, Value.nodes, Value.nodesItems_append]; omega
      | replace => simp only [Value.merge, Value.nodes]; omega
    | _ => simp [Value.merge, Value.nodes]
  | .null | .bool _ | .num _ | .str _ => by simp [Value.merge]

theorem Members.nodes_merge_le (policy : ArrayPolicy) (base : Members) :
    (upper : List (String × Value)) →
      Members.nodes (Members.merge policy base upper) ≤ Members.nodes base + Members.nodes upper
  | [] => by simp [Members.merge]
  | (key, v) :: rest => by
    rw [Members.merge, Members.nodes_cons]
    dsimp only
    split
    · next old h =>
      have hrest := Members.nodes_merge_le policy
        (Members.set base key (Value.merge policy old v)) rest
      have hset := Members.nodes_set_of_get?_eq_some (v := Value.merge policy old v) h
      have hv := Value.nodes_merge_le policy old v
      omega
    · next h =>
      have hrest := Members.nodes_merge_le policy (Members.set base key v) rest
      have hset := Members.nodes_set_of_get?_eq_none (v := v) h
      omega

end

theorem Members.nodes_mergeSource_le (policy : ArrayPolicy) (base : Members) (source : Value) :
    Members.nodes (Members.mergeSource policy base source) < Members.nodes base + source.nodes := by
  cases source with
  | obj upper =>
    have := Members.nodes_merge_le policy base upper
    simp only [Members.nodes] at this
    simp only [Members.mergeSource, Value.nodes, Members.nodes]
    omega
  | _ => exact Nat.lt_add_of_pos_right (Value.nodes_pos _)

theorem Members.nodes_mergeSources_le (policy : ArrayPolicy) (base : Members)
    (sources : List Value) :
    Members.nodes (Members.mergeSources policy base sources)
      ≤ Members.nodes base + Value.nodesItems sources := by
  induction sources generalizing base with
  | nil => simp [Members.mergeSources, Value.nodesItems]
  | cons source rest ih =>
    have hrest := ih (Members.mergeSource policy base source)
    have hsource := Members.nodes_mergeSource_le policy base source
    simp only [Members.mergeSources, List.foldl_cons, Value.nodesItems] at hrest ⊢
    omega

end Stencil
