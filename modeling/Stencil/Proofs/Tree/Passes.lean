import Stencil.Proofs.Failure
import Stencil.Tree.Replace

/-!
# The two passes over a container

An array or object is rendered by the substitution and the merge pass, one after the other. Neither
pass drops the root: the substitution leaves a container of the same kind, and the merge pass a
value of the same kind.

## Main results

* `Stencil.Tree.exists_value_of_substitute`, `Stencil.Tree.exists_applyMerges?` — each pass keeps
  the root.
* `Stencil.Tree.replace_eq_ok_iff_of_container` — the rendering as the two passes in turn.
-/

set_option autoImplicit false

namespace Stencil.Tree

variable {context : Value} {options : Options}

/-- The substitution leaves a container where there was one, and of the same kind. -/
theorem exists_value_of_substitute {levels : Nat} {node : Value} {visit : Visit}
    (hkind : node.kind ∈ [.array, .object])
    (h : substitute context options (levels + 1) node = .ok visit) :
    ∃ v, visit = .value v ∧ v.kind = node.kind := by
  cases node with
  | arr items =>
    rw [substitute, bind_eq_ok_iff] at h
    obtain ⟨visits, -, h⟩ := h
    cases h
    exact ⟨_, rfl, rfl⟩
  | obj members =>
    rw [substitute, bind_eq_ok_iff] at h
    obtain ⟨visits, -, h⟩ := h
    cases h
    exact ⟨_, rfl, rfl⟩
  | null | bool | num | str => simp [Value.kind] at hkind

/-- The root is within every depth limit, and the merge pass keeps its kind. -/
theorem exists_applyMerges? (options : Options) (levels : Nat) (v : Value) :
    ∃ w, applyMerges? options (levels + 1) v = some w ∧ w.kind = v.kind := by
  cases v <;> exact ⟨_, rfl, rfl⟩

/-- An array or object is rendered by the two passes one after the other. -/
theorem replace_eq_ok_iff_of_container {node r : Value} (hkind : node.kind ∈ [.array, .object]) :
    replace context options node = .ok r ↔
      ∃ v, substitute context options (options.maxDepth + 1) node = .ok (.value v)
        ∧ v.kind = node.kind ∧ applyMerges? options (options.maxDepth + 1) v = some r := by
  have hreplace : replace context options node = (do
      let visit ← substitute context options (options.maxDepth + 1) node
      return (visit.member?.bind (applyMerges? options (options.maxDepth + 1))).getD .null) := by
    cases node with
    | arr items => rfl
    | obj members => rfl
    | null | bool | num | str => simp [Value.kind] at hkind
  rw [hreplace, bind_eq_ok_iff]
  constructor
  · rintro ⟨visit, hsubstitute, h⟩
    obtain ⟨v, rfl, hv⟩ := exists_value_of_substitute hkind hsubstitute
    obtain ⟨w, hw, -⟩ := exists_applyMerges? options options.maxDepth v
    cases h
    refine ⟨v, hsubstitute, hv, ?_⟩
    show _ = some ((applyMerges? options (options.maxDepth + 1) v).getD .null)
    rw [hw, Option.getD_some]
  · rintro ⟨v, hsubstitute, -, h⟩
    refine ⟨.value v, hsubstitute, ?_⟩
    show Except.ok ((applyMerges? options (options.maxDepth + 1) v).getD .null) = _
    rw [h, Option.getD_some]

end Stencil.Tree
