import Mathlib.Logic.Basic
import Stencil.Proofs.Template.Fault
import Stencil.Tree.Replace

/-!
# Failures of a tree

A tree is rendered down to the depth limit, and the first faulty placeholder in document order is
the failure of the whole. Look-ups, casts, merges and what the depth limit drops cannot fail, so
whether and how a tree fails depends on the tree and the options, never on the context.

## Main definitions

* `Stencil.Tree.texts` — the texts of a tree in document order, down to a depth.
* `Stencil.Tree.bodies` — the bodies of the placeholders in them.

## Main results

* `Stencil.Tree.failure?_substitute` — the failure of the substitution.
* `Stencil.Tree.failure?_replace` — the failure of the whole.
* `Stencil.Tree.replace_eq_error_iff` — which trees fail, and how.
-/

set_option autoImplicit false

namespace Stencil.Tree

/-! ## The texts of a tree -/

/-- The texts of a tree in document order, on the uppermost `levels` levels. -/
def texts : (levels : Nat) → Value → List String
  | 0, _ => []
  | _ + 1, .str s => [s]
  | levels + 1, .arr items => items.flatMap (texts levels)
  | levels + 1, .obj members => members.flatMap fun m => texts levels m.2
  | _ + 1, _ => []

/-- The bodies of the placeholders of a tree in document order, in the texts that are not below the
depth limit. -/
def bodies (options : Options) (node : Value) : List (List Char) :=
  (texts (options.maxDepth + 1) node).flatMap fun s => (Template.segments s.toList).bodies

/-! ## Failures -/

/-- The first failure among the placeholders of a text. -/
def textFailure? (options : Options) (s : String) : Option RenderError :=
  (Template.segments s.toList).bodies.findSome? fun b => failure? (Template.prepare options b)

/-- The substitution fails as the first of the texts that fails.

**Proof sketch.** By induction on the levels. The items or members of a container are visited one
after the other, and what becomes of their results cannot fail. -/
theorem failure?_substitute (context : Value) (options : Options) (levels : Nat) (node : Value) :
    failure? (substitute context options levels node)
      = (texts levels node).findSome? (textFailure? options) := by
  induction levels generalizing node with
  | zero => rfl
  | succ levels ih =>
    cases node with
    | str s =>
      rw [substitute, failure?_bind_pure, Template.failure?_render, texts, List.findSome?_cons]
      unfold textFailure?
      split
      · next h => rw [h]
      · next h => rw [h]; rfl
    | arr items =>
      rw [substitute, failure?_bind_pure, failure?_mapM, texts, findSome?_flatMap]
      exact congrArg (List.findSome? · items) (funext ih)
    | obj members =>
      rw [substitute, failure?_bind_pure, failure?_mapM, texts, findSome?_flatMap]
      refine congrArg (List.findSome? · members) (funext fun m => ?_)
      exact (failure?_bind_pure _ _).trans (ih m.2)
    | null => rfl
    | bool b => rfl
    | num n => rfl

/-- A text, array or object fails as its first faulty placeholder; the context takes no part in
it. -/
theorem failure?_replace (context : Value) (options : Options) {node : Value}
    (h : node.kind ∉ [.null, .boolean, .number]) :
    failure? (replace context options node)
      = (bodies options node).findSome? fun b => failure? (Template.prepare options b) := by
  have hsubstitute := failure?_substitute context options (options.maxDepth + 1) node
  rw [bodies, findSome?_flatMap]
  cases node with
  | str s =>
    rw [substitute, failure?_bind_pure] at hsubstitute
    rw [replace, failure?_bind_pure]
    exact hsubstitute
  | arr items =>
    rw [replace, failure?_bind_pure]
    exact hsubstitute
  | obj members =>
    rw [replace, failure?_bind_pure]
    exact hsubstitute
  | null => exact absurd List.mem_cons_self h
  | bool b => exact absurd (by simp [Value.kind]) h
  | num n => exact absurd (by simp [Value.kind]) h

/-- Any other value is refused by its kind. -/
theorem replace_of_kind (context : Value) (options : Options) {node : Value}
    (h : node.kind ∈ [.null, .boolean, .number]) :
    replace context options node = .error (.unrenderable node.kind) := by
  cases node with
  | null | bool | num => rfl
  | str | arr | obj => simp [Value.kind] at h

/-- No value of these kinds holds a placeholder. -/
theorem bodies_of_kind (options : Options) {node : Value}
    (h : node.kind ∈ [.null, .boolean, .number]) : bodies options node = [] := by
  cases node with
  | null | bool | num => rfl
  | str | arr | obj => simp [Value.kind] at h

/-! ## The first faulty placeholder -/

/-- The first failure in a list of bodies is the fault of a body behind acceptable ones. -/
theorem findSome?_failure?_prepare_eq_some_iff {options : Options} {l : List (List Char)}
    {e : RenderError} :
    l.findSome? (fun b => failure? (Template.prepare options b)) = some e ↔
      ∃ before b after, l = before ++ b :: after
        ∧ (∀ a ∈ before, Template.Acceptable options a) ∧ Template.Fault options b e := by
  rw [List.findSome?_eq_some_iff]
  simp only [failure?_eq_some_iff, Template.prepare_eq_error_iff,
    Template.failure?_prepare_eq_none_iff, and_comm]

/-- A tree is rendered exactly when it is a text, array or object whose placeholders are all
acceptable. -/
theorem exists_replace_eq_ok_iff (context : Value) (options : Options) (node : Value) :
    (∃ v, replace context options node = .ok v) ↔
      node.kind ∉ [.null, .boolean, .number]
        ∧ ∀ b ∈ bodies options node, Template.Acceptable options b := by
  rw [← failure?_eq_none_iff]
  by_cases h : node.kind ∈ [.null, .boolean, .number]
  · simp [replace_of_kind context options h, h]
  · simp only [failure?_replace context options h, List.findSome?_eq_none_iff,
      Template.failure?_prepare_eq_none_iff, h, not_false_eq_true, true_and]

/-- A tree fails with the refusal of its kind or with the fault of its first faulty placeholder. -/
theorem replace_eq_error_iff_first (context : Value) (options : Options) (node : Value)
    (e : RenderError) : replace context options node = .error e ↔
      (node.kind ∈ [.null, .boolean, .number] ∧ e = .unrenderable node.kind)
      ∨ ∃ before b after, bodies options node = before ++ b :: after
        ∧ (∀ a ∈ before, Template.Acceptable options a) ∧ Template.Fault options b e := by
  rw [← findSome?_failure?_prepare_eq_some_iff, ← failure?_eq_some_iff]
  by_cases h : node.kind ∈ [.null, .boolean, .number]
  · simp [replace_of_kind context options h, bodies_of_kind options h, h, eq_comm]
  · simp only [failure?_replace context options h, h, false_and, false_or]

/-- The failure is the same in every context. -/
theorem failure?_replace_congr (context context' : Value) (options : Options) (node : Value) :
    failure? (replace context options node) = failure? (replace context' options node) := by
  by_cases h : node.kind ∈ [.null, .boolean, .number]
  · rw [replace_of_kind context options h, replace_of_kind context' options h]
  · rw [failure?_replace context options h, failure?_replace context' options h]

/-- **Whether and how a tree fails depends on the tree and the options only.** It fails exactly when
it is null, a boolean or a number, or when it holds a faulty placeholder down to the depth limit; in
the second case with the fault of the first one in document order. In any two contexts it is
rendered in both, or fails in both with one failure. -/
theorem replace_eq_error_iff (context : Value) (options : Options) (node : Value) :
    ((∃ e, replace context options node = .error e) ↔
      node.kind ∈ [.null, .boolean, .number]
        ∨ ∃ b ∈ bodies options node, ¬ Template.Acceptable options b)
    ∧ (∀ e, replace context options node = .error e ↔
      (node.kind ∈ [.null, .boolean, .number] ∧ e = .unrenderable node.kind)
      ∨ ∃ before b after, bodies options node = before ++ b :: after
        ∧ (∀ a ∈ before, Template.Acceptable options a) ∧ Template.Fault options b e)
    ∧ ∀ context', (∃ v v', replace context options node = .ok v
        ∧ replace context' options node = .ok v')
      ∨ ∃ e, replace context options node = .error e
        ∧ replace context' options node = .error e := by
  refine ⟨?_, replace_eq_error_iff_first context options node, fun context' => ?_⟩
  · have hfails : (∃ e, replace context options node = .error e)
        ↔ ¬ ∃ v, replace context options node = .ok v := by
      cases replace context options node <;> simp
    rw [hfails, exists_replace_eq_ok_iff, not_and_or, not_not]
    simp only [not_forall, exists_prop]
  · have hsame := failure?_replace_congr context context' options node
    cases h : replace context options node with
    | ok v =>
      rw [h, failure?_ok] at hsame
      obtain ⟨v', hv'⟩ := failure?_eq_none_iff.1 hsame.symm
      exact Or.inl ⟨v, v', rfl, hv'⟩
    | error e =>
      rw [h, failure?_error] at hsame
      exact Or.inr ⟨e, rfl, failure?_eq_some_iff.1 hsame.symm⟩

end Stencil.Tree
