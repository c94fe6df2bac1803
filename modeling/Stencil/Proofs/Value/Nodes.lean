import Mathlib.Data.List.Basic
import Stencil.Value.Object

/-!
# The nodes of a value

The nodes of a value are the value itself and the nodes of its items or members. The root is at
depth zero, and a node is one deeper than the container it stands in. A value is cut at a depth by
dropping the items and members that lie deeper; a container at that depth stays, and is emptied.

## Main definitions

* `Stencil.Value.subtrees` — the nodes of a value, each with what is below it.
* `Stencil.Value.depth` — the depth of the deepest node.
* `Stencil.Value.cut`, `Stencil.Value.cut?` — a value without its nodes below a depth; what is left
  of it on a number of levels.
* `Stencil.Value.keys` — the keys of an object; any other value has none.
* `Stencil.Value.Keyed` — every node has keys of a certain sort.
* `Stencil.Value.LacksKey`, `Stencil.Value.Distinct` — no object has a member with a key; no object
  has two members with one key.

## Main results

* `Stencil.Value.subtrees_arr`, `Stencil.Value.subtrees_obj` — the nodes of a container, by its
  items or members.
* `Stencil.Value.depth_arr_lt_iff`, `Stencil.Value.depth_obj_lt_iff` — its depth likewise.
* `Stencil.Value.keyed_arr_iff`, `Stencil.Value.keyed_obj_iff` — the keys of its nodes likewise.
* `Stencil.Value.cut_arr`, `Stencil.Value.cut_obj` — what is left of it in a cut.
* `Stencil.Value.cut_cut` — of two cuts, the higher one counts.
-/

set_option autoImplicit false

namespace Stencil.Value

/-! ## Nodes -/

mutual

/-- The nodes of a value in document order, each with what is below it. -/
def subtrees : Value → List Value
  | .arr items => .arr items :: subtreesItems items
  | .obj members => .obj members :: subtreesMembers members
  | v => [v]

/-- The nodes of items. -/
def subtreesItems : List Value → List Value
  | [] => []
  | v :: rest => subtrees v ++ subtreesItems rest

/-- The nodes of the values of members. -/
def subtreesMembers : List (String × Value) → List Value
  | [] => []
  | (_, v) :: rest => subtrees v ++ subtreesMembers rest

end

/-- The nodes of an array are the array and those of its items. -/
theorem subtrees_arr (items : List Value) :
    (arr items).subtrees = .arr items :: items.flatMap subtrees := by
  rw [subtrees]
  congr 1
  induction items with
  | nil => rfl
  | cons v rest ih => rw [subtreesItems, ih, List.flatMap_cons]

/-- The nodes of an object are the object and those of the values of its members. -/
theorem subtrees_obj (members : Members) :
    (obj members).subtrees = .obj members :: members.flatMap fun m => m.2.subtrees := by
  rw [subtrees]
  congr 1
  induction members with
  | nil => rfl
  | cons m rest ih => rw [subtreesMembers, ih, List.flatMap_cons]

/-- A value is one of its nodes. -/
theorem self_mem_subtrees (v : Value) : v ∈ v.subtrees := by
  cases v <;> simp [subtrees]

/-- A property that passes from the items of an array and from the values of the members of an
object to the container, and that all other values have, holds of all values. -/
@[elab_as_elim]
theorem nodeInduction {P : Value → Prop} (null : P .null) (bool : ∀ b, P (.bool b))
    (num : ∀ n, P (.num n)) (str : ∀ s, P (.str s))
    (arr : ∀ items, (∀ v ∈ items, P v) → P (.arr items))
    (obj : ∀ members : Members, (∀ m ∈ members, P m.2) → P (.obj members)) : (v : Value) → P v
  | .null => null
  | .bool b => bool b
  | .num n => num n
  | .str s => str s
  | .arr items => arr items fun v _ => nodeInduction null bool num str arr obj v
  | .obj members => obj members fun m _ => nodeInduction null bool num str arr obj m.2
termination_by v => sizeOf v
decreasing_by
  · have hlt := List.sizeOf_lt_of_mem ‹v ∈ items›
    simp only [Value.arr.sizeOf_spec]
    omega
  · have hlt := List.sizeOf_lt_of_mem ‹m ∈ members›
    have hsecond : sizeOf m.2 < sizeOf m := by
      cases m
      simp only [Prod.mk.sizeOf_spec]
      omega
    simp only [Value.obj.sizeOf_spec]
    omega

/-! ## Depth -/

mutual

/-- The depth of the deepest node, the value itself being at depth zero. -/
def depth : Value → Nat
  | .arr items => depthItems items
  | .obj members => depthMembers members
  | .null | .bool _ | .num _ | .str _ => 0

/-- The depth of the deepest node among items. -/
def depthItems : List Value → Nat
  | [] => 0
  | v :: rest => max (depth v + 1) (depthItems rest)

/-- The depth of the deepest node among the values of members. -/
def depthMembers : List (String × Value) → Nat
  | [] => 0
  | (_, v) :: rest => max (depth v + 1) (depthMembers rest)

end

/-- An array is one deeper than its deepest item. -/
theorem depth_arr_lt_iff {items : List Value} {d : Nat} :
    (arr items).depth < d + 1 ↔ ∀ v ∈ items, v.depth < d := by
  rw [depth, Nat.lt_succ_iff]
  induction items with
  | nil => simp [depthItems]
  | cons v rest ih =>
    rw [depthItems, Nat.max_le, List.forall_mem_cons, ih, Nat.succ_le_iff]

/-- An object is one deeper than the deepest value of its members. -/
theorem depth_obj_lt_iff {members : Members} {d : Nat} :
    (obj members).depth < d + 1 ↔ ∀ m ∈ members, m.2.depth < d := by
  rw [depth, Nat.lt_succ_iff]
  induction members with
  | nil => simp [depthMembers]
  | cons m rest ih =>
    rw [depthMembers, Nat.max_le, List.forall_mem_cons, ih, Nat.succ_le_iff]

/-! ## Cuts -/

/-- A value without its nodes below a depth; the value itself is at depth zero. -/
def cut : (depth : Nat) → Value → Value
  | 0, .arr _ => .arr []
  | 0, .obj _ => .obj []
  | depth + 1, .arr items => .arr (items.map (cut depth))
  | depth + 1, .obj members => .obj (members.map fun m => (m.1, cut depth m.2))
  | _, v => v

/-- What is left of a value when `levels` levels are left for it. -/
def cut? : (levels : Nat) → Value → Option Value
  | 0, _ => none
  | depth + 1, v => some (v.cut depth)

/-- A cut array has what is left of its items on one level less. -/
theorem cut_arr (d : Nat) (items : List Value) :
    (arr items).cut d = .arr (items.filterMap (cut? d)) := by
  cases d with
  | zero =>
    have hnone : items.filterMap (cut? 0) = [] := List.filterMap_eq_nil_iff.2 fun _ _ => rfl
    rw [hnone, cut]
  | succ d =>
    have hsome : items.filterMap (cut? (d + 1)) = items.map (cut d) :=
      congrFun List.filterMap_eq_map items
    rw [hsome, cut]

/-- A cut object has what is left of the values of its members on one level less. -/
theorem cut_obj (d : Nat) (members : Members) :
    (obj members).cut d
      = .obj (members.filterMap fun m => (cut? d m.2).map fun v => (m.1, v)) := by
  cases d with
  | zero =>
    have hnone : members.filterMap (fun m => (cut? 0 m.2).map fun v => (m.1, v)) = [] :=
      List.filterMap_eq_nil_iff.2 fun _ _ => rfl
    rw [hnone, cut]
  | succ d =>
    have hsome : members.filterMap (fun m => (cut? (d + 1) m.2).map fun v => (m.1, v))
        = members.map fun m => (m.1, cut d m.2) :=
      congrFun List.filterMap_eq_map members
    rw [hsome, cut]

/-- Of two cuts, the higher one counts. -/
theorem cut_cut {d d' : Nat} (h : d ≤ d') (v : Value) : (v.cut d').cut d = v.cut d := by
  induction d generalizing d' v with
  | zero =>
    cases v with
    | arr items => cases d' <;> rfl
    | obj members => cases d' <;> rfl
    | null | bool | num | str => cases d' <;> rfl
  | succ d ih =>
    obtain ⟨e, rfl⟩ : ∃ e, d' = e + 1 := ⟨d' - 1, by omega⟩
    have hle : d ≤ e := by omega
    cases v with
    | arr items =>
      simp only [cut, List.map_map]
      congr 1
      exact List.map_congr_left fun v _ => ih hle v
    | obj members =>
      simp only [cut, List.map_map]
      congr 1
      refine List.map_congr_left fun m _ => ?_
      exact congrArg (Prod.mk m.1) (ih hle m.2)
    | null | bool | num | str => rfl

/-! ## Keys -/

/-- The keys of an object; any other value has none. -/
def keys : Value → List String
  | .obj members => Members.keys members
  | .null | .bool _ | .num _ | .str _ | .arr _ => []

/-- The keys of every node, at any depth, have a property. -/
def Keyed (P : List String → Prop) (v : Value) : Prop := ∀ n ∈ v.subtrees, P n.keys

/-- No object at any depth has a member with this key. -/
abbrev LacksKey (key : String) (v : Value) : Prop := v.Keyed (key ∉ ·)

/-- No object at any depth has two members with one key. -/
abbrev Distinct (v : Value) : Prop := v.Keyed List.Nodup

instance instDecidableKeyed {P : List String → Prop} [DecidablePred P] (v : Value) :
    Decidable (v.Keyed P) :=
  inferInstanceAs (Decidable (∀ n ∈ v.subtrees, P n.keys))

section

variable {P : List String → Prop} {items : List Value} {members : Members} {key : String}

/-- Of the nodes of an array, those of its items count: the array has no keys of its own. -/
theorem keyed_arr_iff (hnil : P []) : (arr items).Keyed P ↔ ∀ v ∈ items, v.Keyed P := by
  unfold Keyed
  rw [subtrees_arr, List.forall_mem_cons, List.forall_mem_flatMap]
  exact and_iff_right hnil

/-- The keys of an object have the property, and so have those of the nodes below it. -/
theorem keyed_obj_iff :
    (obj members).Keyed P ↔ P (Members.keys members) ∧ ∀ m ∈ members, m.2.Keyed P := by
  unfold Keyed
  rw [subtrees_obj, List.forall_mem_cons, List.forall_mem_flatMap]
  rfl

/-- An array lacks a key when its items do. -/
theorem lacksKey_arr_iff : (arr items).LacksKey key ↔ ∀ v ∈ items, v.LacksKey key :=
  keyed_arr_iff List.not_mem_nil

/-- An object lacks a key when none of its members has it and their values lack it. -/
theorem lacksKey_obj_iff :
    (obj members).LacksKey key ↔
      (∀ m ∈ members, m.1 ≠ key) ∧ ∀ m ∈ members, m.2.LacksKey key := by
  have hkeys : key ∉ Members.keys members ↔ ∀ m ∈ members, m.1 ≠ key := by
    simp only [Members.keys, List.mem_map, not_exists, not_and, ne_eq]
  rw [← hkeys]
  exact keyed_obj_iff

/-- The keys of the value itself have the property. -/
theorem Keyed.keys {v : Value} (h : v.Keyed P) : P v.keys := h v v.self_mem_subtrees

end

end Stencil.Value
