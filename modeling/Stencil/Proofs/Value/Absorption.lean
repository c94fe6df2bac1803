import Stencil.Proofs.Value.Sources
import Stencil.Tree.Directives

/-!
# Merging the same value again

Where arrays replace each other, a value that has been laid over another one leaves nothing to do
for itself: laying it over the result again changes nothing, down to the order of the keys. So a
source may be listed twice in a row. An object without members changes no object under either
policy, and no object changes it.

## Main results

* `Stencil.Members.merge_eq_self` — members that hold what is laid over them stay as they are.
* `Stencil.Value.merge_merge_self`, `Stencil.Value.merge_self` — a value is laid over another one,
  or over itself, again.
* `Stencil.Members.nil_merge` — members laid over none.
* `Stencil.Members.mergeSources_repeated`, `Stencil.Tree.settle_repeated` — a source listed twice in
  a row.
* `Stencil.Tree.merge_absorbs` — all of it together.
-/

set_option autoImplicit false

namespace Stencil

namespace Members

variable {policy : ArrayPolicy}

/-! ## Members that stay as they are -/

/-- Writing what a key holds changes nothing. -/
theorem set_of_get? {α : Type} {ms : List (String × α)} {key : String} {v : α}
    (h : get? ms key = some v) : set ms key v = ms := by
  induction ms with
  | nil => cases h
  | cons m rest ih =>
    obtain ⟨k, w⟩ := m
    rw [get?] at h
    rw [set]
    by_cases hk : k = key
    · rw [if_pos hk, Option.some_inj] at h
      rw [if_pos hk, h]
    · rw [if_neg hk] at h
      rw [if_neg hk, ih h]

/-- A new key goes behind the others. -/
theorem set_of_get?_eq_none {α : Type} {ms : List (String × α)} {key : String} (v : α)
    (h : get? ms key = none) : set ms key v = ms ++ [(key, v)] := by
  induction ms with
  | nil => rfl
  | cons m rest ih =>
    obtain ⟨k, w⟩ := m
    rw [get?] at h
    rw [set]
    by_cases hk : k = key
    · rw [if_pos hk] at h
      cases h
    · rw [if_neg hk] at h
      rw [if_neg hk, ih h, List.cons_append]

/-- Members that are changed by nothing that is laid over them stay as they are. -/
theorem merge_eq_self {base upper : Members}
    (h : ∀ m ∈ upper, ∃ old, get? base m.1 = some old ∧ Value.merge policy old m.2 = old) :
    merge policy base upper = base := by
  induction upper with
  | nil => rfl
  | cons m rest ih =>
    rw [List.forall_mem_cons] at h
    obtain ⟨⟨old, hold, hmerge⟩, hrest⟩ := h
    rw [merge, hold]
    dsimp only
    rw [hmerge, set_of_get? hold, ih hrest]

/-- Members whose keys are new are put behind the others as they are. -/
theorem merge_eq_append {base upper : Members} (hupper : (keys upper).Nodup)
    (hnew : ∀ key ∈ keys upper, key ∉ keys base) : merge policy base upper = base ++ upper := by
  induction upper generalizing base with
  | nil => exact (List.append_nil base).symm
  | cons m rest ih =>
    obtain ⟨k, v⟩ := m
    obtain ⟨hk, hrest⟩ := List.nodup_cons.1 hupper
    have hkeys : keys ((k, v) :: rest) = k :: keys rest := rfl
    rw [hkeys, List.forall_mem_cons] at hnew
    have hnone : get? base k = none := not_mem_keys_iff.1 hnew.1
    have hset : set base k v = base ++ [(k, v)] := set_of_get?_eq_none v hnone
    have hlater : ∀ key ∈ keys rest, key ∉ keys (base ++ [(k, v)]) := by
      intro key hkey hmem
      rw [keys, List.map_append, List.mem_append] at hmem
      rcases hmem with hmem | hmem
      · exact hnew.2 key hkey hmem
      · rw [List.mem_singleton.1 hmem] at hkey
        exact hk hkey
    rw [merge, hnone]
    dsimp only
    rw [hset, ih hrest hlater, List.append_assoc, List.singleton_append]

/-- Members laid over none are left as they are. -/
theorem nil_merge {upper : Members} (hupper : (keys upper).Nodup) :
    merge policy [] upper = upper :=
  merge_eq_append hupper fun _ _ => List.not_mem_nil

end Members

/-! ## Values -/

namespace Value

/-- What is laid over null is left as it is. -/
theorem null_merge (policy : ArrayPolicy) (v : Value) : merge policy .null v = v := by
  cases v <;> rfl

mutual

/-- Where arrays replace each other, laying a value over another one twice is laying it over once.

**Proof sketch.** By induction on the upper value. When both are objects, each member of the upper
one has been laid over what was there under its key, or over nothing; by induction what is there now
is not changed by it again. In all other cases the upper value is the result, and is laid over
itself; that is the same law with null below. -/
theorem merge_merge_self : (upper : Value) → upper.Distinct → ∀ base,
    merge .replace (merge .replace base upper) upper = merge .replace base upper
  | .obj upper => by
    intro hdistinct base
    obtain ⟨hkeys, hvalues⟩ := keyed_obj_iff.1 hdistinct
    have hagain := merge_merge_self_of_mem upper hvalues
    have hself : Members.merge .replace upper upper = upper := by
      refine Members.merge_eq_self fun m hm => ⟨m.2, Members.get?_of_mem hkeys hm, ?_⟩
      have hnull := hagain m hm .null
      rwa [null_merge] at hnull
    cases base with
    | obj members =>
      rw [merge, merge]
      refine congrArg obj (Members.merge_eq_self fun m hm => ?_)
      rw [Members.get?_merge hkeys, Members.get?_of_mem hkeys hm]
      cases Members.get? members m.1 with
      | none =>
        have hnull := hagain m hm .null
        rw [null_merge] at hnull
        exact ⟨m.2, rfl, hnull⟩
      | some old => exact ⟨merge .replace old m.2, rfl, hagain m hm old⟩
    | null | bool | num | str | arr => exact congrArg obj hself
  | .arr upper => by
    intro _ base
    cases base <;> rfl
  | .null | .bool _ | .num _ | .str _ => fun _ _ => rfl

/-- The law holds for the values of members. -/
theorem merge_merge_self_of_mem : (upper : List (String × Value)) →
    (∀ m ∈ upper, m.2.Distinct) → ∀ m ∈ upper, ∀ base,
      merge .replace (merge .replace base m.2) m.2 = merge .replace base m.2
  | [] => fun _ m hm => by cases hm
  | (key, v) :: rest => by
    intro hdistinct
    rw [List.forall_mem_cons] at hdistinct ⊢
    exact ⟨merge_merge_self v hdistinct.1, merge_merge_self_of_mem rest hdistinct.2⟩

end

/-- Where arrays replace each other, a value laid over itself is left as it is. -/
theorem merge_self {v : Value} (h : v.Distinct) : merge .replace v v = v := by
  have hnull := merge_merge_self v h .null
  rwa [null_merge] at hnull

end Value

/-! ## Sources and directives -/

/-- Where arrays replace each other, a source may be listed twice in a row. -/
theorem Members.mergeSources_repeated {source : Value} (h : source.Distinct) (base : Members)
    (before after : List Value) :
    mergeSources .replace base (before ++ source :: source :: after)
      = mergeSources .replace base (before ++ source :: after) := by
  have hsource : ∀ members : Members,
      mergeSource .replace (mergeSource .replace members source) source
        = mergeSource .replace members source := by
    intro members
    cases source with
    | obj upper => exact Value.obj.inj (Value.merge_merge_self (.obj upper) h (.obj members))
    | null | bool | num | str | arr => rfl
  rw [mergeSources_append, mergeSources_append]
  exact congrArg (mergeSources .replace · after) (hsource _)

/-- Removing a key that has been written leaves what removing it before leaves. -/
theorem Members.erase_set {α : Type} (ms : List (String × α)) (key : String) (v : α) :
    erase (set ms key v) key = erase ms key := by
  induction ms with
  | nil => simp [set, erase]
  | cons m rest ih =>
    obtain ⟨k, w⟩ := m
    rw [set]
    by_cases hk : k = key
    · rw [if_pos hk, erase_cons, if_pos hk, erase_cons, if_pos hk]
    · rw [if_neg hk, erase_cons, if_neg hk, erase_cons, if_neg hk, ih]

namespace Tree

variable {options : Options} {members : Members} {before after : List Value} {source : Value}

/-- Members with a directive are settled as what its round leaves. -/
theorem settle_of_get? {directive : Value}
    (h : Members.get? members options.mergeKey = some directive) :
    settle options members = settle options (round options members directive) := by
  rw [settle]
  split
  · next d hd =>
    rw [h, Option.some_inj] at hd
    rw [hd]
  · next hnone =>
    rw [h] at hnone
    cases hnone

/-- Where arrays replace each other, members with a directive that lists a source twice in a row are
settled as those with the directive that lists it once. -/
theorem settle_repeated (hpolicy : options.arrays = .replace) (hsource : source.Distinct)
    (h : Members.get? members options.mergeKey
      = some (.arr (before ++ source :: source :: after))) :
    settle options members
      = settle options
        (Members.set members options.mergeKey (.arr (before ++ source :: after))) := by
  rw [settle_of_get? h, settle_of_get? (Members.get?_set_self _ _ _), round, round, sources,
    sources, hpolicy, Members.erase_set, Members.mergeSources_repeated hsource]

/-- **Merging the same value again.** No object of the values has a key twice. Where arrays replace
each other,

* a value laid over itself is left as it is,
* laying a value over another one twice is laying it over once,
* a list of sources with one source twice in a row leaves the same members as the list with it once,
* and so does, in the merge pass, a directive with such a list.

An object laid over one without members, and one without members laid over an object, leave the
object under either policy.

**Proof sketch.** The second part is `Value.merge_merge_self`, and the first one is the second with
null below. The last source of a list and the next one are laid over each other as two objects are,
and a directive is what its sources are to the other members. -/
theorem merge_absorbs (other : Value) (hsource : source.Distinct) :
    Value.merge .replace source source = source
      ∧ Value.merge .replace (Value.merge .replace other source) source
        = Value.merge .replace other source
      ∧ (source.kind = .object → ∀ policy, Value.merge policy (.obj []) source = source
        ∧ Value.merge policy source (.obj []) = source)
      ∧ (∀ base before after,
        Members.mergeSources .replace base (before ++ source :: source :: after)
          = Members.mergeSources .replace base (before ++ source :: after))
      ∧ ∀ options members before after levels, options.arrays = .replace →
        Members.get? members options.mergeKey
          = some (.arr (before ++ source :: source :: after)) →
        applyMerges? options levels (.obj members)
          = applyMerges? options levels (.obj
            (Members.set members options.mergeKey (.arr (before ++ source :: after)))) := by
  refine ⟨Value.merge_self hsource, Value.merge_merge_self source hsource other, ?_,
    Members.mergeSources_repeated hsource, ?_⟩
  · intro hobject policy
    cases source with
    | obj upper => exact ⟨congrArg Value.obj (Members.nil_merge hsource.keys), rfl⟩
    | null | bool | num | str | arr => cases hobject
  · intro options members before after levels hpolicy hdirective
    cases levels with
    | zero => rfl
    | succ levels =>
      rw [applyMerges?, applyMerges?, settle_repeated hpolicy hsource hdirective]

/-- An array that replaces an object and then itself, a member that is new to the object below and
then is not, and a directive that comes in with the source that is listed twice. -/
theorem merge_absorbs_of_replaced_and_new :
    let source : Value := .obj [
      ("n", .obj [("new", .null), ("l", .arr [.obj [("x", .bool true)], .null])]),
      ("m", .obj [("late", .str "t")])]
    let other : Value := .obj [("n", .obj [("l", .obj [("y", .null)]), ("old", .null)])]
    let options : Options := { mergeKey := "m", arrays := .replace }
    let members : Members := [("n", .null), ("m", .arr [.null, source, source, .obj []])]
    source.Distinct
      ∧ Value.merge .replace source source = source
      ∧ Value.merge .replace (Value.merge .replace other source) source
        = Value.merge .replace other source
      ∧ Value.merge .concat (.obj []) source = source
      ∧ Members.mergeSources .replace [] [source, source]
        = Members.mergeSources .replace [] [source]
      ∧ Members.get? members options.mergeKey = some (.arr [.null, source, source, .obj []])
      ∧ applyMerges? options 9 (.obj members)
        = applyMerges? options 9 (.obj [("n", .null), ("m", .arr [.null, source, .obj []])]) := by
  intro source other options members
  have hsource : source.Distinct := by decide +kernel
  obtain ⟨hself, htwice, hempty, hlist, hpass⟩ := merge_absorbs other hsource
  have hdirective : Members.get? members options.mergeKey
      = some (.arr ([.null] ++ source :: source :: [.obj []])) := by decide +kernel
  refine ⟨hsource, hself, htwice, (hempty rfl .concat).1, hlist [] [] [], hdirective, ?_⟩
  exact hpass options members [.null] [.obj []] 9 rfl hdirective

end Tree

end Stencil
