import Stencil.Proofs.Placeholder.TagNames
import Stencil.Proofs.Tree.Fault

/-!
# Restricted tags

With a list of allowed tags, a tree is rendered only if its placeholders use no other tags. The
check sees the tags that reading a placeholder keeps. Those are all names that its alternatives
write and the first name that its fallback writes; a later name of a fallback has to be that of a
tag, but not of an allowed one. So the list covers what the tree writes exactly when it covers
those later names.

## Main results

* `Stencil.Template.acceptable_iff_named` — acceptance under a list, as a condition on the written
  names.
* `Stencil.Tree.replace_allowList` — what the list guarantees of a tree that is rendered, and that
  it refuses no tree within it.
* `Stencil.Tree.replace_allowList_later_name` — a tree that is rendered and writes a tag that is not
  on the list.
-/

set_option autoImplicit false

namespace Stencil

variable {options : Options} {allowed : List Tag}

/-- The allowed tags are those on the list. -/
theorem Options.allows_iff_mem (h : options.allowedTags = some allowed) (t : Tag) :
    options.allows t = true ↔ t ∈ allowed := by
  rw [Options.allows, h]
  exact List.contains_iff_mem

/-- A body is acceptable under a list exactly when the list has all names that reading it keeps and
the others are names of tags. -/
theorem Template.acceptable_iff_named (h : options.allowedTags = some allowed) (body : List Char) :
    Template.Acceptable options body ↔
      (∀ n ∈ Placeholder.keptNames body, Tag.Named allowed n)
      ∧ ∀ n ∈ Placeholder.droppedNames body, Tag.Named Tag.all n := by
  have hnames := Placeholder.keptNames_append_droppedNames body
  constructor
  · rintro ⟨p, hparse, hallowed⟩
    constructor
    · intro n hn
      rw [← Placeholder.tags_of_parse hparse, List.mem_map] at hn
      obtain ⟨t, ht, rfl⟩ := hn
      exact Tag.named_name_iff.2 ((Options.allows_iff_mem h t).1 (hallowed t ht))
    · intro n hn
      apply Placeholder.exists_parse_eq_ok_iff.1 ⟨p, hparse⟩
      rw [← hnames]
      exact List.mem_append_right _ hn
  · rintro ⟨hkept, hdropped⟩
    have hknown : ∀ n ∈ Placeholder.writtenNames body, Tag.Named Tag.all n := by
      intro n hn
      rw [← hnames] at hn
      rcases List.mem_append.1 hn with hn | hn
      · exact (hkept n hn).all
      · exact hdropped n hn
    obtain ⟨p, hparse⟩ := Placeholder.exists_parse_eq_ok_iff.2 hknown
    refine ⟨p, hparse, fun t ht => (Options.allows_iff_mem h t).2 (Tag.named_name_iff.1 ?_)⟩
    apply hkept
    rw [← Placeholder.tags_of_parse hparse]
    exact List.mem_map_of_mem ht

/-- Of an acceptable body, the list has all written names exactly when it has those that reading the
body drops. -/
theorem Template.Acceptable.forall_written_iff (h : options.allowedTags = some allowed)
    {body : List Char} (hbody : Template.Acceptable options body) :
    (∀ n ∈ Placeholder.writtenNames body, Tag.Named allowed n)
      ↔ ∀ n ∈ Placeholder.droppedNames body, Tag.Named allowed n := by
  rw [← Placeholder.keptNames_append_droppedNames body]
  constructor
  · intro hall n hn
    exact hall n (List.mem_append_right _ hn)
  · intro hdropped n hn
    rcases List.mem_append.1 hn with hn | hn
    · exact ((Template.acceptable_iff_named h body).1 hbody).1 n hn
    · exact hdropped n hn

/-- A body all of whose names are on the list is acceptable under it. -/
theorem Template.acceptable_of_forall_written (h : options.allowedTags = some allowed)
    {body : List Char} (hall : ∀ n ∈ Placeholder.writtenNames body, Tag.Named allowed n) :
    Template.Acceptable options body := by
  rw [← Placeholder.keptNames_append_droppedNames body] at hall
  refine (Template.acceptable_iff_named h body).2 ⟨fun n hn => ?_, fun n hn => ?_⟩
  · exact hall n (List.mem_append_left _ hn)
  · exact (hall n (List.mem_append_right _ hn)).all

/-! ## A tree under a list -/

namespace Tree

/-- A tree all of whose written names are on the list never fails for a tag that is not allowed: it
is rendered, or refused for its kind. -/
theorem ne_disallowedTag_of_forall_written (h : options.allowedTags = some allowed)
    (context node : Value)
    (hall : ∀ b ∈ bodies options node, ∀ n ∈ Placeholder.writtenNames b, Tag.Named allowed n)
    (t : Tag) : replace context options node ≠ .error (.disallowedTag t) := by
  intro ht
  by_cases hkind : node.kind ∈ [.null, .boolean, .number]
  · rw [replace_of_kind context options hkind] at ht
    cases ht
  · obtain ⟨v, hv⟩ := (exists_replace_eq_ok_iff context options node).2
      ⟨hkind, fun b hb => Template.acceptable_of_forall_written h (hall b hb)⟩
    rw [hv] at ht
    cases ht

/-- **What a list of allowed tags guarantees.** A tree is rendered exactly when it is a text, array
or object and in each placeholder down to the depth limit the list has all names that reading the
placeholder keeps, the dropped ones being names of tags. Of a tree that is rendered, the list has
all written names exactly when it has the dropped ones. A tree all of whose written names are on the
list never fails for a tag that is not allowed. -/
theorem replace_allowList (context : Value) (options : Options) (node : Value) (allowed : List Tag)
    (h : options.allowedTags = some allowed) :
    ((∃ v, replace context options node = .ok v) ↔
      node.kind ∉ [.null, .boolean, .number]
        ∧ ∀ b ∈ bodies options node,
          (∀ n ∈ Placeholder.keptNames b, Tag.Named allowed n)
          ∧ ∀ n ∈ Placeholder.droppedNames b, Tag.Named Tag.all n)
    ∧ ((∃ v, replace context options node = .ok v) →
      ((∀ b ∈ bodies options node, ∀ n ∈ Placeholder.writtenNames b, Tag.Named allowed n)
        ↔ ∀ b ∈ bodies options node, ∀ n ∈ Placeholder.droppedNames b, Tag.Named allowed n))
    ∧ ((∀ b ∈ bodies options node, ∀ n ∈ Placeholder.writtenNames b, Tag.Named allowed n) →
      ∀ t, replace context options node ≠ .error (.disallowedTag t)) := by
  have hrendered := exists_replace_eq_ok_iff context options node
  refine ⟨?_, fun hok => forall₂_congr fun b hb => ?_,
    ne_disallowedTag_of_forall_written h context node⟩
  · rw [hrendered]
    simp only [Template.acceptable_iff_named h]
  · exact ((hrendered.1 hok).2 b hb).forall_written_iff h

/-- Names in a path with a colon, behind blanks, in an alternative that is never looked at and
behind the first name of a fallback: all of them are on the list. -/
theorem replace_allowList_of_spread_names :
    let options : Options := { allowedTags := some [.int, .json, .bool] }
    let node : Value := .obj
      [("k", .arr [.str "\x7b\x7ba:b c: int|d :bool ?: 1:int: json :\x7d\x7d"])]
    options.allowedTags = some [.int, .json, .bool]
      ∧ (∃ v, replace .null options node = .ok v)
      ∧ ∀ b ∈ bodies options node, ∀ n ∈ Placeholder.writtenNames b,
        Tag.Named [.int, .json, .bool] n := by
  intro options node
  obtain ⟨hrendered, hcovered, -⟩ :=
    replace_allowList .null options node [.int, .json, .bool] rfl
  have hok := hrendered.2 ⟨by decide +kernel, by decide +kernel⟩
  exact ⟨rfl, hok, (hcovered hok).2 (by decide +kernel)⟩

/-- The list does not cover every name of a tree that is rendered: the second name of a fallback
may be that of any tag. -/
theorem replace_allowList_later_name :
    let options : Options := { allowedTags := some [.str] }
    let node : Value := .arr [.str "\x7b\x7bx?:1:str:json\x7d\x7d"]
    replace (.obj []) options node = .ok (.arr [.str "1"])
      ∧ ∃ b ∈ bodies options node, ∃ n ∈ Placeholder.writtenNames b, ¬ Tag.Named [.str] n :=
  ⟨eq_ok_of_toOption (by decide +kernel), by decide +kernel⟩

end Tree

end Stencil
