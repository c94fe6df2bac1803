import Mathlib.Data.List.Basic
import Stencil.Proofs.Tree.Passes
import Stencil.Proofs.Value.Merging

/-!
# Trees without directives

The directives of a tree are applied from the root down, and what lies below the depth limit is
dropped. What is left has no directive at any depth and lies within the limit, and the pass changes
no tree that is so.

## Main definitions

* `Stencil.Tree.Normal` — a tree within a number of levels that has no directive.

## Main results

* `Stencil.Tree.normal_iff` — the same in terms of the depth and the keys of its nodes.
* `Stencil.Tree.normal_of_applyMerges?` — the pass leaves such a tree.
* `Stencil.Tree.applyMerges?_of_normal` — the pass keeps such a tree.
* `Stencil.Tree.replace_normal_form` — a rendered container has no directive and lies within the
  depth limit, and the pass keeps exactly what is so.
* `Stencil.Tree.hereditary_applyMerges?`, `Stencil.Tree.forall_texts_applyMerges?` — the pass keeps
  what the keys, or the texts, have in common.
-/

set_option autoImplicit false

namespace Stencil.Tree

/-- The tree has at most `levels` levels, and none of its objects has a member with the merge
key. -/
def Normal (options : Options) : (levels : Nat) → Value → Prop
  | 0, _ => False
  | levels + 1, .arr items => ∀ v ∈ items, Normal options levels v
  | levels + 1, .obj members =>
    (∀ m ∈ members, m.1 ≠ options.mergeKey) ∧ ∀ m ∈ members, Normal options levels m.2
  | _ + 1, _ => True

/-- A tree is normal when its deepest node is within the levels and no object at any depth has the
merge key.

**Proof sketch.** By induction on the levels; both sides say the same of the items or members on one
level less. -/
theorem normal_iff {options : Options} {levels : Nat} {v : Value} :
    Normal options levels v ↔ v.depth < levels ∧ v.LacksKey options.mergeKey := by
  induction levels generalizing v with
  | zero => simp [Normal]
  | succ levels ih =>
    cases v with
    | arr items =>
      rw [Normal, Value.depth_arr_lt_iff, Value.lacksKey_arr_iff, ← forall₂_and]
      exact forall₂_congr fun v _ => ih
    | obj members =>
      rw [Normal, Value.depth_obj_lt_iff, Value.lacksKey_obj_iff, and_left_comm]
      refine and_congr_right fun _ => ?_
      rw [← forall₂_and]
      exact forall₂_congr fun m _ => ih
    | null | bool | num | str => simp [Normal, Value.depth, Value.Keyed, Value.subtrees, Value.keys]

/-! ## The pass and its results -/

/-- No directive is left among settled members. -/
theorem ne_mergeKey_of_mem_settle {options : Options} {members : Members} {key : String} {v : Value}
    (h : (key, v) ∈ settle options members) : key ≠ options.mergeKey :=
  Members.get?_eq_none_iff.1 (get?_settle options members) (key, v) h

/-- **What the pass leaves has no directive and lies within the levels.**

**Proof sketch.** By induction on the levels. The members of an object are settled first, and what
becomes of each of their values keeps its key. -/
theorem normal_of_applyMerges? {options : Options} {levels : Nat} {v w : Value}
    (h : applyMerges? options levels v = some w) : Normal options levels w := by
  induction levels generalizing v w with
  | zero => cases h
  | succ levels ih =>
    cases v with
    | arr items =>
      rw [applyMerges?, Option.some_inj] at h
      rw [← h, Normal]
      intro x hx
      obtain ⟨y, -, hy⟩ := List.mem_filterMap.1 hx
      exact ih hy
    | obj members =>
      rw [applyMerges?, Option.some_inj] at h
      rw [← h, Normal]
      constructor
      · intro m hm
        obtain ⟨x, hmem, -⟩ := Members.mem_filterMap_value hm
        exact ne_mergeKey_of_mem_settle hmem
      · intro m hm
        obtain ⟨x, -, hx⟩ := Members.mem_filterMap_value hm
        exact ih hx
    | null | bool | num | str =>
      cases h
      exact True.intro

/-- Members without a directive are settled. -/
theorem settle_of_forall_ne {options : Options} {members : Members}
    (h : ∀ m ∈ members, m.1 ≠ options.mergeKey) : settle options members = members := by
  have hnone := Members.get?_eq_none_iff.2 h
  rw [settle]
  split
  · next directive hsome =>
    rw [hnone] at hsome
    cases hsome
  · rfl

/-- **The pass keeps a tree that has no directive and lies within the levels.** -/
theorem applyMerges?_of_normal {options : Options} {levels : Nat} {v : Value}
    (h : Normal options levels v) : applyMerges? options levels v = some v := by
  induction levels generalizing v with
  | zero => exact h.elim
  | succ levels ih =>
    cases v with
    | arr items =>
      rw [Normal] at h
      rw [applyMerges?, (List.filterMap_congr fun x hx => ih (h x hx)).trans List.filterMap_some]
    | obj members =>
      rw [Normal] at h
      obtain ⟨hkeys, hvalues⟩ := h
      have hmember : ∀ m ∈ members,
          ((applyMerges? options levels m.2).map fun v => (m.1, v)) = some m := by
        intro m hm
        rw [ih (hvalues m hm)]
        rfl
      rw [applyMerges?, settle_of_forall_ne hkeys,
        (List.filterMap_congr hmember).trans List.filterMap_some]
    | null | bool | num | str => rfl

/-! ## Hereditary properties -/

section

variable {P : Value → Prop} {K : List String → Prop} {options : Options} {members : Members}
  {directive : Value}

/-- The sources of a directive have the hereditary properties of the directive. -/
theorem hereditary_sources (hP : Hereditary P K) (h : P directive) :
    ∀ s ∈ sources directive, P s := by
  cases directive with
  | arr items => exact hP.arr_iff.1 h
  | _ =>
    intro s hs
    rw [List.mem_singleton.1 hs]
    exact h

/-- A hereditary property of an object is one of its directive. -/
theorem hereditary_directive (hP : Hereditary P K) (h : P (.obj members))
    (hdirective : Members.get? members options.mergeKey = some directive) : P directive :=
  hP.of_step? h hdirective

/-- A round keeps hereditary properties. -/
theorem hereditary_round (hP : Hereditary P K) (h : P (.obj members))
    (hdirective : Members.get? members options.mergeKey = some directive) :
    P (.obj (round options members directive)) :=
  hP.mergeSources options.arrays (hP.erase h options.mergeKey)
    (hereditary_sources hP (hereditary_directive hP h hdirective))

/-- All rounds together keep hereditary properties. -/
theorem hereditary_settle (hP : Hereditary P K) (h : P (.obj members)) :
    P (.obj (settle options members)) := by
  fun_induction settle options members with
  | case1 members directive hdirective _ ih => exact ih (hereditary_round hP h hdirective)
  | case2 members hnone => exact h

/-- **The pass keeps hereditary properties.**

**Proof sketch.** By induction on the levels. The members of an object are settled first; what
becomes of their values keeps its key. -/
theorem hereditary_applyMerges? (hP : Hereditary P K) {levels : Nat} {v w : Value} (hv : P v)
    (h : applyMerges? options levels v = some w) : P w := by
  induction levels generalizing v w with
  | zero => cases h
  | succ levels ih =>
    cases v with
    | arr items =>
      rw [applyMerges?, Option.some_inj] at h
      rw [hP.arr_iff] at hv
      rw [← h, hP.arr_iff]
      intro x hx
      obtain ⟨y, hmem, hy⟩ := List.mem_filterMap.1 hx
      exact ih (hv y hmem) hy
    | obj members =>
      rw [applyMerges?, Option.some_inj] at h
      have hsettle : P (.obj (settle options members)) := hereditary_settle hP hv
      obtain ⟨hkeys, hvalues⟩ := hP.obj_iff.1 hsettle
      rw [← h, hP.obj_iff]
      refine ⟨hP.keys.sublist (Members.keys_filterMap_value_sublist _) hkeys, fun m hm => ?_⟩
      obtain ⟨x, hmem, hx⟩ := Members.mem_filterMap_value hm
      exact ih (hvalues _ hmem) hx
    | null | bool | num | str =>
      cases h
      exact hv

/-- The pass makes no texts. -/
theorem forall_texts_applyMerges? {Q : String → Prop} {levels : Nat} {v w : Value}
    (hv : ∀ t ∈ v.texts, Q t) (h : applyMerges? options levels v = some w) :
    ∀ t ∈ w.texts, Q t :=
  hereditary_applyMerges? (hereditary_texts Q) hv h

end

/-! ## Rendered containers -/

/-- **The normal form of the merge pass.** Whatever the template, its values and the merge sources
bring in, a rendered array or object has no member with the merge key at any depth, and no node
below the depth limit. The pass keeps exactly the values of which that holds; so it finds nothing
left to do in what it has made itself. -/
theorem replace_normal_form (context : Value) (options : Options) :
    (∀ node r, node.kind ∈ [.array, .object] → replace context options node = .ok r →
      r.LacksKey options.mergeKey ∧ r.depth ≤ options.maxDepth)
    ∧ (∀ v : Value, applyMerges? options (options.maxDepth + 1) v = some v ↔
      v.LacksKey options.mergeKey ∧ v.depth ≤ options.maxDepth)
    ∧ ∀ v, ∃ w, applyMerges? options (options.maxDepth + 1) v = some w
      ∧ applyMerges? options (options.maxDepth + 1) w = some w := by
  have hnormal : ∀ v : Value, Normal options (options.maxDepth + 1) v ↔
      v.LacksKey options.mergeKey ∧ v.depth ≤ options.maxDepth := by
    intro v
    rw [normal_iff, Nat.lt_succ_iff, and_comm]
  refine ⟨fun node r hkind hr => ?_, fun v => ?_, fun v => ?_⟩
  · obtain ⟨v, -, -, hmerged⟩ := (replace_eq_ok_iff_of_container hkind).1 hr
    exact (hnormal r).1 (normal_of_applyMerges? hmerged)
  · rw [← hnormal]
    exact ⟨normal_of_applyMerges?, applyMerges?_of_normal⟩
  · obtain ⟨w, hw, -⟩ := exists_applyMerges? options options.maxDepth v
    exact ⟨w, hw, applyMerges?_of_normal (normal_of_applyMerges? hw)⟩

/-- Directives come from the template, from the values of two sources, where they are merged with
each other, and from a source of theirs; a list, a source and the template reach below the limit. -/
theorem replace_normal_form_of_nested_directives :
    let options : Options := { mergeKey := "", maxDepth := 2 }
    let context : Value := .obj [
      ("a", .obj [("x", .bool true), ("", .arr [.obj [("y", .obj [("z", .arr [.null])])]])]),
      ("b", .obj [("", .arr [.obj [("w", .null), ("", .obj [("v", .str "last")])]])]),
      ("c", .arr [.arr [.arr [.str "deep"]], .str "kept"])]
    let node : Value := .obj [
      ("base", .str "\x7b\x7bc:json\x7d\x7d"),
      ("", .arr [.str "\x7b\x7ba:json\x7d\x7d", .str "\x7b\x7bb:json\x7d\x7d"]),
      ("in", .arr [.obj [("", .obj [("k", .null)])]])]
    let r : Value := .obj [
      ("base", .arr [.arr [], .str "kept"]), ("in", .arr [.obj []]), ("x", .bool true),
      ("y", .obj [("z", .arr [])]), ("w", .null), ("v", .str "last")]
    node.kind ∈ [.array, .object] ∧ replace context options node = .ok r
      ∧ r.LacksKey options.mergeKey ∧ r.depth ≤ options.maxDepth := by
  intro options context node r
  have hkind : node.kind ∈ [.array, .object] := by decide
  have hr : replace context options node = .ok r := eq_ok_of_toOption (by decide +kernel)
  exact ⟨hkind, hr, (replace_normal_form context options).1 node r hkind hr⟩

end Stencil.Tree
