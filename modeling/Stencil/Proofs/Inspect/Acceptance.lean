import Stencil.Proofs.Inspect.Leaves
import Stencil.Proofs.Tree.Fault

/-!
# Trees that pass an inspection

Rendering looks at the texts of a tree down to the depth limit, an inspection at all of them. Both
read the placeholders in the same order and fail as the first one that cannot be read. So a tree
with no text below the depth limit passes an inspection exactly when it can be rendered without a
restriction of the tags.

## Main results

* `Stencil.Tree.texts_eq_filter` — the texts of a tree on some levels, by their places.
* `Stencil.Template.failure?_prepare_of_unrestricted` — without a restriction, a placeholder fails
  only when it cannot be read.
* `Stencil.Inspect.entries_ok_iff_replace_ok` — the same trees pass, and fail alike.
-/

set_option autoImplicit false

namespace Stencil

/-! ## Texts on some levels -/

/-- The texts on some levels of a value that is no text itself are those of its children on one
level less. -/
theorem Tree.texts_of_kind {v : Value} (h : v.kind ≠ .string) (levels : Nat) :
    texts (levels + 1) v = v.children.flatMap fun c => texts levels c.2 := by
  cases v with
  | str s => exact absurd rfl h
  | arr items =>
    have hitems : items.zipIdx.map Prod.fst = items := List.zipIdx_map_fst 0 items
    conv_lhs => rw [texts, ← hitems]
    rw [Value.children, List.flatMap_map, List.flatMap_map]
  | obj members => rw [texts, Value.children, List.flatMap_map]
  | null | bool | num => rfl

/-- The texts of a tree on some levels are those whose places have fewer steps than there are
levels. -/
theorem Tree.texts_eq_filter (levels : Nat) (v : Value) :
    texts levels v
      = (v.placedTexts.filter fun t => t.place.length < levels).map Value.PlacedText.text := by
  induction v using Value.childInduction generalizing levels with
  | text s => cases levels <;> rfl
  | other v hkind ih =>
    cases levels with
    | zero => simp [texts]
    | succ levels =>
      rw [texts_of_kind hkind, Value.placedTexts_of_kind hkind, List.filter_flatMap,
        List.map_flatMap]
      refine List.flatMap_congr fun c hc => ?_
      rw [ih c hc, List.filter_map, List.map_map]
      simp only [Function.comp_def, Value.PlacedText.below, List.length_cons,
        Nat.add_lt_add_iff_right]

/-! ## Placeholders without a restriction -/

/-- Without a restriction of the tags, a placeholder fails only when it cannot be read. -/
theorem Template.failure?_prepare_of_unrestricted {options : Options}
    (h : options.allowedTags = none) (body : List Char) :
    failure? (prepare options body) = failure? (Placeholder.parse body) := by
  have hcheck : ∀ p : Placeholder, p.check options = .ok () := fun p =>
    check_eq_ok_iff.2 fun t _ => by rw [Options.allows, h]
  unfold prepare
  cases Placeholder.parse body with
  | error e => rfl
  | ok p =>
    show failure? (p.check options >>= fun _ => pure p) = none
    rw [hcheck]
    rfl

/-! ## Inspecting and rendering -/

namespace Inspect

/-- Without a restriction of the tags, a tree with no text below the depth limit fails in an
inspection as it does when it is rendered. -/
theorem failure?_entries_eq_failure?_replace (context : Value) {options : Options} {node : Value}
    (hkind : node.kind ∉ [.null, .boolean, .number])
    (hdepth : ∀ t ∈ node.placedTexts, t.place.length ≤ options.maxDepth)
    (htags : options.allowedTags = none) :
    failure? (entries node) = failure? (Tree.replace context options node) := by
  have hall : node.placedTexts.filter (fun t => t.place.length < options.maxDepth + 1)
      = node.placedTexts :=
    List.filter_eq_self.2 fun t ht => decide_eq_true (Nat.lt_succ_of_le (hdepth t ht))
  have hprepare : (fun b => failure? (Template.prepare options b))
      = fun b => failure? (Placeholder.parse b) :=
    funext (Template.failure?_prepare_of_unrestricted htags)
  rw [Tree.failure?_replace context options hkind, hprepare, Tree.bodies, findSome?_flatMap,
    Tree.texts_eq_filter, hall, List.findSome?_map, failure?_entries]
  rfl

/-- **Inspecting and rendering accept the same trees.** Without a restriction of the tags, a text,
array or object with no text below the depth limit passes an inspection exactly when it is rendered,
in any context. Otherwise both fail alike, for one name that is none of a tag. -/
theorem entries_ok_iff_replace_ok (context : Value) {options : Options} {node : Value}
    (hkind : node.kind ∈ [.string, .array, .object])
    (hdepth : ∀ t ∈ node.placedTexts, t.place.length ≤ options.maxDepth)
    (htags : options.allowedTags = none) :
    ((∃ es, entries node = .ok es) ↔ ∃ v, Tree.replace context options node = .ok v)
    ∧ ∀ e, (entries node = .error e ↔ Tree.replace context options node = .error e)
      ∧ (entries node = .error e →
        ∃ n, ¬ Tag.Named Tag.all n ∧ e = .unknownTag (String.ofList n)) := by
  have hkind' : node.kind ∉ [.null, .boolean, .number] := by
    cases hk : node.kind <;> simp [hk] at hkind ⊢
  have hsame := failure?_entries_eq_failure?_replace context hkind' hdepth htags
  refine ⟨?_, fun e => ⟨?_, fun he => ?_⟩⟩
  · rw [← failure?_eq_none_iff, ← failure?_eq_none_iff, hsame]
  · rw [← failure?_eq_some_iff, ← failure?_eq_some_iff, hsame]
  · obtain ⟨-, n, -, -, -, hn, rfl⟩ := entries_eq_error_iff.1 he
    exact ⟨n, hn, rfl⟩

/-- The deepest text is at the limit; it writes an unknown tag behind the first one of a fallback
that is never needed, in front of two further unknown tags. -/
theorem entries_ok_iff_replace_ok_of_unknown_tags :
    let options : Options := { maxDepth := 2 }
    let context : Value := .obj [("x", .str "1"), ("y", .bool true)]
    let node : Value := .obj [("a", .arr [.null,
      .str "\x7b\x7bx:int\x7d\x7d \x7b\x7by?:1:bool:flaot\x7d\x7d \x7b\x7bx:integer\x7d\x7d"]),
      ("$truto_merge", .str "\x7b\x7bx:object\x7d\x7d")]
    node.kind ∈ [.string, .array, .object]
      ∧ (∀ t ∈ node.placedTexts, t.place.length ≤ options.maxDepth)
      ∧ options.allowedTags = none
      ∧ entries node = .error (.unknownTag "flaot")
      ∧ Tree.replace context options node = .error (.unknownTag "flaot") := by
  intro options context node
  have hkind : node.kind ∈ [.string, .array, .object] := by decide
  have hdepth : ∀ t ∈ node.placedTexts, t.place.length ≤ options.maxDepth := by decide +kernel
  have hentries : entries node = .error (.unknownTag "flaot") :=
    failure?_eq_some_iff.1 (by decide +kernel)
  have hsame := (entries_ok_iff_replace_ok context hkind hdepth rfl).2 (.unknownTag "flaot")
  exact ⟨hkind, hdepth, rfl, hentries, hsame.1.1 hentries⟩

end Inspect

end Stencil
