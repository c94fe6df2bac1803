import Stencil.Proofs.Template.Fixed
import Stencil.Proofs.Tree.Fault
import Stencil.Proofs.Tree.Normal

/-!
# Rendering a tree again

A rendered tree can be rendered once more. Its texts come from the texts of the first tree, its
nodes lie within the depth limit and no directive is left in it; so it stays as it is when its texts
render to themselves.

## Main results

* `Stencil.Tree.forall_texts_substitute` — where the texts of a substitution come from.
* `Stencil.Tree.substitute_eq_self` — the substitution keeps texts that render to themselves.
* `Stencil.Tree.replace_replace` — rendering a rendered tree again changes nothing.
-/

set_option autoImplicit false

namespace Stencil.Tree

variable {context : Value} {options : Options} {P : String → Prop}

/-! ## The substitution -/

/-- What the substitution leaves holds texts that the texts of the tree render to.

**Proof sketch.** By induction on the levels. An undefined item is null and any other node that is
no text or container stays, and neither holds a text. -/
theorem forall_texts_substitute {levels : Nat} {node v : Value}
    (hrendered : ∀ s ∈ texts levels node, ∀ w,
      Template.render context options s.toList = .ok (some w) → ∀ x ∈ w.texts, P x)
    (h : substitute context options levels node = .ok (.value v)) : ∀ x ∈ v.texts, P x := by
  induction levels generalizing node v with
  | zero => cases h
  | succ levels ih =>
    cases node with
    | str s =>
      rw [substitute, bind_eq_ok_iff] at h
      obtain ⟨outcome, hrender, h⟩ := h
      cases outcome with
      | none => cases h
      | some w =>
        cases h
        exact hrendered s List.mem_cons_self _ hrender
    | arr items =>
      rw [substitute, bind_eq_ok_iff] at h
      obtain ⟨visits, hvisits, h⟩ := h
      cases h
      rw [Value.forall_mem_texts_arr]
      intro w hw
      obtain ⟨visit, hvisit, hitem⟩ := List.mem_filterMap.1 hw
      obtain ⟨item, hmem, hsubstitute⟩ := exists_mem_of_mapM_eq_ok hvisits visit hvisit
      cases visit with
      | value u =>
        cases hitem
        refine ih (fun s hs => hrendered s ?_) hsubstitute
        rw [texts]
        exact List.mem_flatMap.2 ⟨item, hmem, hs⟩
      | undefined =>
        cases hitem
        exact fun x hx => absurd hx List.not_mem_nil
      | excised => cases hitem
    | obj members =>
      rw [substitute, bind_eq_ok_iff] at h
      obtain ⟨visits, hvisits, h⟩ := h
      cases h
      rw [Value.forall_mem_texts_obj]
      intro m hm
      obtain ⟨visit, hvisit, hmember⟩ := Members.mem_filterMap_value hm
      obtain ⟨n, hmem, hstep⟩ := exists_mem_of_mapM_eq_ok hvisits _ hvisit
      obtain ⟨visit', hsubstitute, heq⟩ := bind_eq_ok_iff.1 hstep
      obtain ⟨-, rfl⟩ := Prod.mk.inj (Except.ok.inj heq)
      cases visit' with
      | value u =>
        rw [Visit.member?, Option.some_inj] at hmember
        rw [← hmember]
        refine ih (fun s hs => hrendered s ?_) hsubstitute
        rw [texts]
        exact List.mem_flatMap.2 ⟨n, hmem, hs⟩
      | undefined => cases hmember
      | excised => cases hmember
    | null | bool | num =>
      cases h
      exact fun x hx => absurd hx List.not_mem_nil

/-- The substitution keeps a tree within the levels whose texts render to themselves. -/
theorem substitute_eq_self {levels : Nat} {v : Value} (hnormal : Normal options levels v)
    (hfixed : ∀ x ∈ v.texts, Template.Fixed context options x) :
    substitute context options levels v = .ok (.value v) := by
  induction levels generalizing v with
  | zero => exact hnormal.elim
  | succ levels ih =>
    cases v with
    | str s =>
      have hrender := hfixed s List.mem_cons_self
      rw [Template.Fixed] at hrender
      rw [substitute, hrender]
      rfl
    | arr items =>
      rw [Normal] at hnormal
      rw [Value.forall_mem_texts_arr] at hfixed
      rw [substitute, mapM_eq_ok_map fun w hw => ih (hnormal w hw) (hfixed w hw)]
      have hitems : (items.map Visit.value).filterMap Visit.item? = items := by
        rw [List.filterMap_map]
        exact List.filterMap_some
      show Except.ok (Visit.value (.arr _)) = _
      rw [hitems]
    | obj members =>
      rw [Normal] at hnormal
      rw [Value.forall_mem_texts_obj] at hfixed
      have hmember : ∀ m ∈ members, (do return (m.1, ← substitute context options levels m.2))
          = Except.ok (m.1, Visit.value m.2) := by
        intro m hm
        rw [ih (hnormal.2 m hm) (hfixed m hm)]
        rfl
      rw [substitute, mapM_eq_ok_map hmember]
      have hmembers : (members.map fun m => (m.1, Visit.value m.2)).filterMap
          (fun m => m.2.member?.map fun v => (m.1, v)) = members := by
        rw [List.filterMap_map]
        exact List.filterMap_some
      show Except.ok (Visit.value (.obj _)) = _
      rw [hmembers]
    | null | bool | num => rfl

/-! ## Rendering again -/

/-- Every text of a tree that is rendered is rendered. -/
theorem exists_render_of_replace {node r : Value} (h : replace context options node = .ok r)
    {s : String} (hs : s ∈ texts (options.maxDepth + 1) node) :
    ∃ v, Template.render context options s.toList = .ok v := by
  obtain ⟨-, hacceptable⟩ := (exists_replace_eq_ok_iff context options node).1 ⟨r, h⟩
  exact Template.exists_render_eq_ok fun b hb =>
    hacceptable b (List.mem_flatMap.2 ⟨s, hs, hb⟩)

/-- **Rendering a rendered tree again changes nothing.** Let no literal text of the texts of a tree
have an opening brace, and let every placeholder in them stay or stand for a value none of whose
texts has one. Then every text that is not one placeholder renders to its literal texts with the
replacements between them, and the rendered tree renders to itself.

**Proof sketch.** The texts of the rendered tree are texts that the first tree's texts render to,
and these render to themselves; the merge pass leaves a tree that neither the depth limit nor the
merge pass changes. -/
theorem replace_replace {context : Value} {options : Options} {node r : Value}
    (hkind : node.kind ∈ [.array, .object]) (hr : replace context options node = .ok r)
    (hs : ∀ s ∈ texts (options.maxDepth + 1) node,
      Template.Reproducible context (Template.segments s.toList)) :
    (∀ s ∈ texts (options.maxDepth + 1) node, (Template.segments s.toList).whole? = none →
      Template.render context options s.toList
        = .ok (some (.str (String.ofList ((Template.segments s.toList).filled context)))))
    ∧ replace context options r = .ok r := by
  constructor
  · intro s hmem hw
    obtain ⟨v, hv⟩ := exists_render_of_replace hr hmem
    rw [hv, (hs s hmem).eq_filled hw hv]
  · obtain ⟨v, hsubstitute, hv, hmerged⟩ := (replace_eq_ok_iff_of_container hkind).1 hr
    have hfixed : ∀ x ∈ r.texts, Template.Fixed context options x := by
      refine forall_texts_applyMerges? ?_ hmerged
      exact forall_texts_substitute (fun s hmem w hw => (hs s hmem).fixed_of_render hw) hsubstitute
    have hnormal : Normal options (options.maxDepth + 1) r := normal_of_applyMerges? hmerged
    have hkind' : r.kind ∈ [.array, .object] := by
      obtain ⟨w, hw, hkind'⟩ := exists_applyMerges? options options.maxDepth v
      rw [hmerged] at hw
      cases hw
      rwa [hkind', hv]
    exact (replace_eq_ok_iff_of_container hkind').2
      ⟨r, substitute_eq_self hnormal hfixed, rfl, applyMerges?_of_normal hnormal⟩

/-- A placeholder that stays between two that are undefined becomes a text of its own, a placeholder
comes twice, a merge source and a list come in from the context, and an item is undefined. -/
theorem replace_replace_of_kept_and_merged :
    let context : Value := .obj [("n", .num (.int 1)), ("list", .str "[1, \"two\"]"),
      ("base", .obj [("b", .str "text"), ("c", .arr [.str "x"])])]
    let node : Value := .obj [
      ("c", .arr [.str "\x7b\x7bu:undefined\x7d\x7d\x7b\x7bk\x7d\x7d\x7b\x7bu:undefined\x7d\x7d",
        .str "\x7b\x7bn\x7d\x7d\x7d\x7b\x7bk\x7d\x7d\x7b\x7bn\x7d\x7d",
        .str "\x7b\x7bu:undefined\x7d\x7d"]),
      ("l", .str "\x7b\x7blist:json\x7d\x7d"),
      ("$truto_merge", .str "\x7b\x7bbase:json\x7d\x7d")]
    let r : Value := .obj [
      ("c", .arr [.str "\x7b\x7bk\x7d\x7d", .str "1\x7d\x7b\x7bk\x7d\x7d1", .null, .str "x"]),
      ("l", .arr [.num (.int 1), .str "two"]),
      ("b", .str "text")]
    node.kind ∈ [.array, .object] ∧ replace context {} node = .ok r
      ∧ (∀ s ∈ texts (({} : Options).maxDepth + 1) node,
        Template.Reproducible context (Template.segments s.toList))
      ∧ replace context {} r = .ok r := by
  intro context node r
  have hkind : node.kind ∈ [.array, .object] := by decide
  have hr : replace context {} node = .ok r := eq_ok_of_toOption (by decide +kernel)
  have hs : ∀ s ∈ texts (({} : Options).maxDepth + 1) node,
      Template.Reproducible context (Template.segments s.toList) := by decide +kernel
  exact ⟨hkind, hr, hs, (replace_replace hkind hr hs).2⟩

end Stencil.Tree
