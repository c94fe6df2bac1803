import Stencil.Value.Object

/-!
# Node counts

## Main definitions

* `Stencil.Value.nodes` — the number of nodes of a value, containers and leaves alike.
* `Stencil.Members.nodes` — the number of nodes of the values of members.

## Main results

* `Stencil.Members.nodes_set_le` — writing a member adds no more than its nodes.
* `Stencil.Members.nodes_erase_add_le` — removing a member takes its nodes away.
-/

set_option autoImplicit false

namespace Stencil

namespace Value

mutual

/-- The number of nodes of a value: one, and those of its items or members. -/
def nodes : Value → Nat
  | .arr items => 1 + nodesItems items
  | .obj members => 1 + nodesMembers members
  | .null | .bool _ | .num _ | .str _ => 1

/-- The number of nodes of items. -/
def nodesItems : List Value → Nat
  | [] => 0
  | v :: rest => nodes v + nodesItems rest

/-- The number of nodes of the values of members. -/
def nodesMembers : List (String × Value) → Nat
  | [] => 0
  | (_, v) :: rest => nodes v + nodesMembers rest

end

theorem nodes_pos (v : Value) : 0 < v.nodes := by
  unfold nodes
  split <;> omega

theorem nodesItems_append (vs ws : List Value) :
    nodesItems (vs ++ ws) = nodesItems vs + nodesItems ws := by
  induction vs with
  | nil => simp [nodesItems]
  | cons v rest ih => simp [nodesItems, ih, Nat.add_assoc]

end Value

namespace Members

/-- The number of nodes of the values of members. -/
def nodes (ms : Members) : Nat := Value.nodesMembers ms

@[simp] theorem nodes_nil : nodes [] = 0 := rfl

@[simp] theorem nodes_cons (m : String × Value) (rest : Members) :
    nodes (m :: rest) = m.2.nodes + nodes rest := rfl

theorem nodes_set_of_get?_eq_none {ms : Members} {key : String} {v : Value}
    (h : get? ms key = none) : nodes (set ms key v) = nodes ms + v.nodes := by
  induction ms with
  | nil => simp [set]
  | cons m rest ih =>
    by_cases hk : m.1 = key
    · simp [get?, hk] at h
    · simp only [get?, hk, if_false] at h
      simp only [set, hk, if_false, nodes_cons, ih h]
      omega

theorem nodes_set_of_get?_eq_some {ms : Members} {key : String} {v w : Value}
    (h : get? ms key = some w) : nodes (set ms key v) + w.nodes = nodes ms + v.nodes := by
  induction ms with
  | nil => simp [get?] at h
  | cons m rest ih =>
    by_cases hk : m.1 = key
    · simp only [get?, hk, if_true, Option.some.injEq] at h
      simp only [set, hk, if_true, nodes_cons, h]
      omega
    · simp only [get?, hk, if_false] at h
      simp only [set, hk, if_false, nodes_cons]
      have := ih h
      omega

theorem nodes_erase_le (ms : Members) (key : String) : nodes (erase ms key) ≤ nodes ms := by
  induction ms with
  | nil => simp [erase]
  | cons m rest ih =>
    rw [erase_cons]
    split <;> simp only [nodes_cons] <;> omega

theorem nodes_erase_add_le {ms : Members} {key : String} {v : Value} (h : get? ms key = some v) :
    nodes (erase ms key) + v.nodes ≤ nodes ms := by
  induction ms with
  | nil => simp [get?] at h
  | cons m rest ih =>
    rw [erase_cons]
    by_cases hk : m.1 = key
    · simp only [get?, hk, if_true, Option.some.injEq] at h
      have := nodes_erase_le rest key
      rw [if_pos hk, nodes_cons, h]
      omega
    · simp only [get?, hk, if_false] at h
      have := ih h
      rw [if_neg hk, nodes_cons, nodes_cons]
      omega

end Members

end Stencil
