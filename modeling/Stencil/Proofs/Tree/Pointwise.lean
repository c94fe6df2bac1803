import Stencil.Proofs.Tree.Rerender

/-!
# Pointwise rendering

Without directives, rendering an array or object is rendering each of its texts in its place, and
dropping what lies below the depth limit: first in the template, then in what the texts have brought
in. Neither the merge pass nor the order of the visits shows.

## Main definitions

* `Stencil.Value.mapTexts` — a value with every text replaced.
* `Stencil.Template.outcome?` — what a text renders to.

## Main results

* `Stencil.Tree.eq_ofOutcome_of_substitute` — the substitution replaces the texts of the cut
  template.
* `Stencil.Tree.applyMerges?_of_lacksKey` — without directives, the merge pass cuts.
* `Stencil.Value.map_cut_mapTexts_cut` — a cut after replacing texts makes one before it
  superfluous.
* `Stencil.Tree.replace_pointwise` — the rendering as a pointwise one between two cuts.
-/

set_option autoImplicit false

namespace Stencil

/-! ## Replacing texts -/

namespace Value

mutual

/-- A value with every text replaced by what a function makes of it. Where it makes nothing of a
text, an item is null and a member is gone. -/
def mapTexts (f : String → Option Value) : Value → Option Value
  | .str s => f s
  | .arr items => some (.arr (mapTextsItems f items))
  | .obj members => some (.obj (mapTextsMembers f members))
  | v => some v

/-- Items with every text replaced. -/
def mapTextsItems (f : String → Option Value) : List Value → List Value
  | [] => []
  | v :: rest => (mapTexts f v).getD .null :: mapTextsItems f rest

/-- Members with every text in their values replaced. -/
def mapTextsMembers (f : String → Option Value) : List (String × Value) → List (String × Value)
  | [] => []
  | (key, v) :: rest =>
    match mapTexts f v with
    | some w => (key, w) :: mapTextsMembers f rest
    | none => mapTextsMembers f rest

end

variable {f : String → Option Value}

/-- The items of an array are replaced one by one. -/
theorem mapTexts_arr (f : String → Option Value) (items : List Value) :
    (arr items).mapTexts f = some (.arr (items.map fun v => (v.mapTexts f).getD .null)) := by
  rw [mapTexts]
  congr 2
  induction items with
  | nil => rfl
  | cons v rest ih => rw [mapTextsItems, ih, List.map_cons]

/-- The members of an object are replaced one by one. -/
theorem mapTexts_obj (f : String → Option Value) (members : Members) :
    (obj members).mapTexts f
      = some (.obj (members.filterMap fun m => (m.2.mapTexts f).map fun v => (m.1, v))) := by
  rw [mapTexts]
  congr 2
  induction members with
  | nil => rfl
  | cons m rest ih =>
    obtain ⟨key, v⟩ := m
    rw [mapTextsMembers, ih, List.filterMap_cons]
    cases v.mapTexts f <;> rfl

/-- A cut after replacing texts makes one before it superfluous.

**Proof sketch.** By induction on the depth. Where a function makes nothing of a text, it makes
nothing of it in the cut value either, since a cut keeps texts. -/
theorem map_cut_mapTexts_cut (d : Nat) (v : Value) :
    ((v.cut d).mapTexts f).map (cut d) = (v.mapTexts f).map (cut d) := by
  induction d generalizing v with
  | zero =>
    cases v with
    | arr items => rfl
    | obj members => rfl
    | null | bool | num | str => rfl
  | succ d ih =>
    cases v with
    | arr items =>
      rw [cut, mapTexts_arr, mapTexts_arr]
      simp only [Option.map_some, cut, List.map_map]
      congr 2
      refine List.map_congr_left fun v _ => ?_
      show cut d (((v.cut d).mapTexts f).getD .null) = cut d ((v.mapTexts f).getD .null)
      rw [← Option.getD_map (cut d), ← Option.getD_map (cut d), ih v]
    | obj members =>
      rw [cut, mapTexts_obj, mapTexts_obj]
      simp only [Option.map_some, cut, List.filterMap_map, List.map_filterMap]
      congr 2
      refine List.filterMap_congr fun m _ => ?_
      have hvalue := congrArg (Option.map (Prod.mk m.1)) (ih m.2)
      simp only [Function.comp_apply, Option.map_map] at hvalue ⊢
      exact hvalue
    | null | bool | num | str => rfl

/-- Replacing texts makes something of a cut value exactly when it does of the value. -/
theorem isSome_mapTexts_cut (f : String → Option Value) (d : Nat) (v : Value) :
    ((v.cut d).mapTexts f).isSome = (v.mapTexts f).isSome := by
  have hcut := congrArg Option.isSome (map_cut_mapTexts_cut (f := f) d v)
  rwa [Option.isSome_map, Option.isSome_map] at hcut

/-- A key that occurs nowhere once the texts of a value have been replaced occurs nowhere once those
of the cut value have.

**Proof sketch.** By induction on the depth. The cut value has the keys of some objects of the
value, and its texts are some of those of the value. -/
theorem lacksKey_mapTexts_cut {key : String} {d : Nat} {v p q : Value}
    (hp : v.mapTexts f = some p) (hlacks : p.LacksKey key)
    (hq : (v.cut d).mapTexts f = some q) : q.LacksKey key := by
  induction d generalizing v p q with
  | zero =>
    cases v with
    | arr items =>
      cases hq
      exact lacksKey_arr_iff.2 nofun
    | obj members =>
      cases hq
      exact lacksKey_obj_iff.2 ⟨nofun, nofun⟩
    | null | bool | num | str =>
      obtain rfl : p = q := Option.some.inj (hp.symm.trans hq)
      exact hlacks
  | succ d ih =>
    cases v with
    | arr items =>
      rw [cut, mapTexts_arr] at hq
      rw [mapTexts_arr] at hp
      cases hp
      cases hq
      rw [lacksKey_arr_iff] at hlacks ⊢
      rw [List.map_map, List.forall_mem_map]
      intro v hv
      have hitem : ((v.mapTexts f).getD .null).LacksKey key := hlacks _ (List.mem_map_of_mem hv)
      have hsome := isSome_mapTexts_cut f d v
      show (((v.cut d).mapTexts f).getD .null).LacksKey key
      cases hcut : (v.cut d).mapTexts f with
      | none => simp [Keyed, subtrees, Value.keys]
      | some w =>
        rw [hcut, Option.isSome_some, eq_comm, Option.isSome_iff_exists] at hsome
        obtain ⟨u, hu⟩ := hsome
        rw [hu] at hitem
        exact ih hu hitem hcut
    | obj members =>
      rw [cut, mapTexts_obj] at hq
      rw [mapTexts_obj] at hp
      cases hp
      cases hq
      rw [lacksKey_obj_iff] at hlacks ⊢
      have hmember : ∀ m ∈ (members.map fun m => (m.1, m.2.cut d)).filterMap
          (fun m => (m.2.mapTexts f).map fun v => (m.1, v)), m.1 ≠ key ∧ m.2.LacksKey key := by
        intro m hm
        obtain ⟨t, ht, hw⟩ := Members.mem_filterMap_value hm
        obtain ⟨n, hn, hcut⟩ := List.mem_map.1 ht
        obtain ⟨hkey, rfl⟩ := Prod.mk.inj hcut
        have hsome := isSome_mapTexts_cut f d n.2
        rw [hw, Option.isSome_some, eq_comm, Option.isSome_iff_exists] at hsome
        obtain ⟨u, hu⟩ := hsome
        have hmem : (n.1, u) ∈ members.filterMap
            fun m => (m.2.mapTexts f).map fun v => (m.1, v) :=
          List.mem_filterMap.2 ⟨n, hn, congrArg (Option.map (Prod.mk n.1)) hu⟩
        rw [← hkey]
        exact ⟨hlacks.1 (n.1, u) hmem, ih hu (hlacks.2 (n.1, u) hmem) hw⟩
      exact ⟨fun m hm => (hmember m hm).1, fun m hm => (hmember m hm).2⟩
    | null | bool | num | str =>
      obtain rfl : p = q := Option.some.inj (hp.symm.trans hq)
      exact hlacks

end Value

/-- What a text renders to; nothing when that is undefined, or when the text cannot be rendered. -/
def Template.outcome? (context : Value) (options : Options) (s : String) : Option Value :=
  (Template.render context options s.toList).toOption.join

namespace Tree

variable {context : Value} {options : Options}

/-- What becomes of a node, when `cut?` is what is left of it within the depth limit. -/
def Visit.ofCut (f : String → Option Value) : (cut? : Option Value) → Visit
  | some v => .ofOutcome (v.mapTexts f)
  | none => .excised

/-- What is left of an item. -/
theorem item?_ofCut (f : String → Option Value) (cut? : Option Value) :
    (Visit.ofCut f cut?).item? = cut?.map fun v => (v.mapTexts f).getD .null := by
  cases cut? with
  | none => rfl
  | some v =>
    rw [Visit.ofCut, Option.map_some]
    cases v.mapTexts f <;> rfl

/-- What is left of the value of a member. -/
theorem member?_ofCut (f : String → Option Value) (cut? : Option Value) :
    (Visit.ofCut f cut?).member? = cut?.bind fun v => v.mapTexts f := by
  cases cut? with
  | none => rfl
  | some v =>
    rw [Visit.ofCut, Option.bind_some]
    cases v.mapTexts f <;> rfl

/-- What the substitution leaves is what is left of the template on its levels, with the texts
replaced.

**Proof sketch.** By induction on the levels. What the visits of the items or members leave is put
together in their order. -/
theorem eq_ofCut_of_substitute {levels : Nat} {node : Value} {visit : Visit}
    (h : substitute context options levels node = .ok visit) :
    visit = .ofCut (Template.outcome? context options) (node.cut? levels) := by
  induction levels generalizing node visit with
  | zero =>
    cases h
    rfl
  | succ levels ih =>
    cases node with
    | str s =>
      rw [substitute, bind_eq_ok_iff] at h
      obtain ⟨outcome, hrender, h⟩ := h
      cases h
      have houtcome : Template.outcome? context options s = outcome := by
        rw [Template.outcome?, hrender]
        rfl
      cases levels <;> exact congrArg Visit.ofOutcome houtcome.symm
    | arr items =>
      rw [substitute, bind_eq_ok_iff] at h
      obtain ⟨visits, hvisits, h⟩ := h
      cases h
      rw [eq_map_of_mapM_eq_ok hvisits fun v _ visit hv => ih hv, List.filterMap_map]
      rw [Value.cut?, Value.cut_arr, Visit.ofCut, Value.mapTexts_arr, List.map_filterMap]
      refine congrArg (fun l => Visit.value (.arr l)) (List.filterMap_congr fun v _ => ?_)
      exact item?_ofCut _ _
    | obj members =>
      rw [substitute, bind_eq_ok_iff] at h
      obtain ⟨visits, hvisits, h⟩ := h
      cases h
      have hmember : ∀ m ∈ members, ∀ b,
          (do return (m.1, ← substitute context options levels m.2)) = Except.ok b →
          b = (m.1, Visit.ofCut (Template.outcome? context options) (m.2.cut? levels)) := by
        intro m _ b hb
        obtain ⟨visit, hvisit, hb⟩ := bind_eq_ok_iff.1 hb
        cases hb
        rw [ih hvisit]
      rw [eq_map_of_mapM_eq_ok hvisits hmember, List.filterMap_map]
      rw [Value.cut?, Value.cut_obj, Visit.ofCut, Value.mapTexts_obj, List.filterMap_filterMap]
      refine congrArg (fun l => Visit.value (.obj l)) (List.filterMap_congr fun m _ => ?_)
      show (Visit.ofCut _ _).member?.map _ = _
      rw [member?_ofCut]
      cases m.2.cut? levels <;> rfl
    | null | bool | num =>
      cases h
      cases levels <;> rfl

/-- Without directives, the merge pass cuts. -/
theorem applyMerges?_of_lacksKey {levels : Nat} {v : Value}
    (h : v.LacksKey options.mergeKey) : applyMerges? options levels v = v.cut? levels := by
  induction levels generalizing v with
  | zero => rfl
  | succ levels ih =>
    cases v with
    | arr items =>
      rw [Value.lacksKey_arr_iff] at h
      rw [applyMerges?, Value.cut?, Value.cut_arr]
      rw [List.filterMap_congr fun v hv => ih (h v hv)]
    | obj members =>
      rw [Value.lacksKey_obj_iff] at h
      rw [applyMerges?, Value.cut?, Value.cut_obj, settle_of_forall_ne h.1]
      rw [List.filterMap_congr fun m hm => congrArg (Option.map (Prod.mk m.1)) (ih (h.2 m hm))]
    | null | bool | num | str => cases levels <;> rfl

/-! ## The texts within the depth limit -/

/-- The texts of what is left of a value on some levels are texts on these levels. -/
theorem mem_texts_of_cut? {levels : Nat} {v w : Value} (h : v.cut? levels = some w) :
    ∀ s ∈ w.texts, s ∈ texts levels v := by
  induction levels generalizing v w with
  | zero => cases h
  | succ levels ih =>
    cases h
    cases v with
    | arr items =>
      rw [Value.cut_arr, Value.forall_mem_texts_arr]
      intro x hx s hs
      obtain ⟨item, hmem, hcut⟩ := List.mem_filterMap.1 hx
      rw [texts]
      exact List.mem_flatMap.2 ⟨item, hmem, ih hcut s hs⟩
    | obj members =>
      rw [Value.cut_obj, Value.forall_mem_texts_obj]
      intro m hm s hs
      obtain ⟨v, hmem, hcut⟩ := Members.mem_filterMap_value hm
      rw [texts]
      exact List.mem_flatMap.2 ⟨_, hmem, ih hcut s hs⟩
    | str s => cases levels <;> exact fun t ht => ht
    | null | bool | num => cases levels <;> exact fun t ht => absurd ht List.not_mem_nil

/-- On more levels there are no fewer texts. -/
theorem texts_subset {levels levels' : Nat} (h : levels ≤ levels') (v : Value) :
    texts levels v ⊆ texts levels' v := by
  induction levels generalizing levels' v with
  | zero => exact List.nil_subset _
  | succ levels ih =>
    obtain ⟨upper, rfl⟩ : ∃ upper, levels' = upper + 1 := ⟨levels' - 1, by omega⟩
    have hle : levels ≤ upper := by omega
    intro s hs
    cases v with
    | arr items =>
      rw [texts] at hs ⊢
      obtain ⟨item, hmem, hs⟩ := List.mem_flatMap.1 hs
      exact List.mem_flatMap.2 ⟨item, hmem, ih hle item hs⟩
    | obj members =>
      rw [texts] at hs ⊢
      obtain ⟨m, hmem, hs⟩ := List.mem_flatMap.1 hs
      exact List.mem_flatMap.2 ⟨m, hmem, ih hle m.2 hs⟩
    | null | bool | num | str => exact hs

/-! ## Rendering without directives -/

/-- A tree that is rendered is rendered under every lower depth limit too. -/
theorem exists_replace_of_le {node r : Value} (h : replace context options node = .ok r)
    {depth : Nat} (hdepth : depth ≤ options.maxDepth) :
    ∃ r, replace context { options with maxDepth := depth } node = .ok r := by
  obtain ⟨hkind, hacceptable⟩ := (exists_replace_eq_ok_iff context options node).1 ⟨r, h⟩
  refine (exists_replace_eq_ok_iff _ _ node).2 ⟨hkind, fun b hb => ?_⟩
  obtain ⟨s, hs, hb⟩ := List.mem_flatMap.1 hb
  have hmem : s ∈ texts (options.maxDepth + 1) node :=
    texts_subset (Nat.succ_le_succ hdepth) node hs
  exact hacceptable b (List.mem_flatMap.2 ⟨s, hmem, hb⟩)

/-- Where the texts of the cut template bring in no directive, a container is rendered to what they
make of it, cut again. -/
theorem exists_mapTexts_of_replace {node r : Value} (hkind : node.kind ∈ [.array, .object])
    (hr : replace context options node = .ok r) :
    ∃ p, (node.cut options.maxDepth).mapTexts (Template.outcome? context options) = some p
      ∧ (p.LacksKey options.mergeKey → r = p.cut options.maxDepth) := by
  obtain ⟨v, hsubstitute, -, hmerged⟩ := (replace_eq_ok_iff_of_container hkind).1 hr
  have hvisit := eq_ofCut_of_substitute hsubstitute
  rw [Value.cut?, Visit.ofCut] at hvisit
  cases hp : (node.cut options.maxDepth).mapTexts (Template.outcome? context options) with
  | none =>
    rw [hp] at hvisit
    cases hvisit
  | some p =>
    rw [hp] at hvisit
    obtain rfl : v = p := Visit.value.inj hvisit
    refine ⟨v, rfl, fun hlacks => ?_⟩
    rw [applyMerges?_of_lacksKey hlacks, Value.cut?, Option.some_inj] at hmerged
    exact hmerged.symm

/-- **Without directives, rendering is pointwise between two cuts.** Of an array or object that is
rendered, take the template cut at the depth limit. Each of its texts can be rendered; put what it
renders to in its place, null for an undefined item, and leave an undefined member out. If no object
has the merge key then, the result is this tree cut at the depth limit. Under a lower limit the
result is then the cut of the result at that limit.

**Proof sketch.** The substitution replaces the texts of the cut template, and without directives
the merge pass cuts. A cut after replacing texts makes one before it superfluous, so only the lower
one of two limits counts. -/
theorem replace_pointwise {context : Value} {options : Options} {node r : Value}
    (hkind : node.kind ∈ [.array, .object]) (hr : replace context options node = .ok r) :
    (∀ s ∈ (node.cut options.maxDepth).texts,
      ∃ outcome, Template.render context options s.toList = .ok outcome)
    ∧ ∃ p, (node.cut options.maxDepth).mapTexts (Template.outcome? context options) = some p
      ∧ (p.LacksKey options.mergeKey →
        r = p.cut options.maxDepth
        ∧ ∀ depth ≤ options.maxDepth,
          replace context { options with maxDepth := depth } node = .ok (r.cut depth)) := by
  obtain ⟨p, hp, hcut⟩ := exists_mapTexts_of_replace hkind hr
  refine ⟨fun s hs => ?_, p, hp, fun hlacks => ⟨hcut hlacks, fun depth hdepth => ?_⟩⟩
  · have hcut? : node.cut? (options.maxDepth + 1) = some (node.cut options.maxDepth) := rfl
    exact exists_render_of_replace hr (mem_texts_of_cut? hcut? s hs)
  · obtain ⟨q, hq⟩ := exists_replace_of_le hr hdepth
    obtain ⟨p', hp', hcut'⟩ := exists_mapTexts_of_replace hkind hq
    have hpcut : ((node.cut options.maxDepth).cut depth).mapTexts
        (Template.outcome? context options) = some p' := by
      rw [Value.cut_cut hdepth]
      exact hp'
    have hlacks' : p'.LacksKey options.mergeKey := Value.lacksKey_mapTexts_cut hp hlacks hpcut
    have hsame : p'.cut depth = p.cut depth := by
      have hmap := Value.map_cut_mapTexts_cut (f := Template.outcome? context options) depth
        (node.cut options.maxDepth)
      rwa [hpcut, hp, Option.map_some, Option.map_some, Option.some_inj] at hmap
    have hresult : q = r.cut depth := by
      calc q = p'.cut depth := hcut' hlacks'
        _ = p.cut depth := hsame
        _ = (p.cut options.maxDepth).cut depth := (Value.cut_cut hdepth p).symm
        _ = r.cut depth := by rw [hcut hlacks]
    rw [hq, hresult]

/-- A list from the context reaches below the limit, as does the template, where the text below it
could not be rendered; an item and a member are undefined. -/
theorem replace_pointwise_of_deep_values :
    let options : Options := { maxDepth := 2 }
    let context : Value := .obj [("list", .arr [.arr [.bool true], .null]), ("x", .str "text")]
    let node : Value := .obj [
      ("a", .arr [.str "\x7b\x7blist:json\x7d\x7d", .str "\x7b\x7bu:undefined\x7d\x7d"]),
      ("b", .str "\x7b\x7bu:undefined\x7d\x7d"),
      ("c", .obj [("d", .arr [.str "\x7b\x7bx:unknown\x7d\x7d"]),
        ("e", .str "<\x7b\x7bx\x7d\x7d>")])]
    let p : Value := .obj [
      ("a", .arr [.arr [.arr [.bool true], .null], .null]),
      ("c", .obj [("d", .arr []), ("e", .str "<text>")])]
    let r : Value := .obj [
      ("a", .arr [.arr [], .null]), ("c", .obj [("d", .arr []), ("e", .str "<text>")])]
    node.kind ∈ [.array, .object] ∧ replace context options node = .ok r
      ∧ (node.cut options.maxDepth).mapTexts (Template.outcome? context options) = some p
      ∧ p.LacksKey options.mergeKey ∧ r = p.cut options.maxDepth
      ∧ ∀ depth ≤ options.maxDepth,
        replace context { options with maxDepth := depth } node = .ok (r.cut depth) := by
  intro options context node p r
  have hkind : node.kind ∈ [.array, .object] := by decide
  have hr : replace context options node = .ok r := eq_ok_of_toOption (by decide +kernel)
  have hp : (node.cut options.maxDepth).mapTexts (Template.outcome? context options) = some p := by
    decide +kernel
  have hlacks : p.LacksKey options.mergeKey := by decide +kernel
  obtain ⟨-, q, hq, hcut⟩ := replace_pointwise hkind hr
  obtain rfl : p = q := Option.some.inj (hp.symm.trans hq)
  exact ⟨hkind, hr, hp, hlacks, hcut hlacks⟩

end Tree

end Stencil
