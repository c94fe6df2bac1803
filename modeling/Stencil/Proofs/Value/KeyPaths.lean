import Stencil.Proofs.Value.Merging

/-!
# Merges along keys

What a merge holds where a list of keys leads, from object to object. As far as the upper value has
objects on the way, the two values are merged level by level; what the upper value holds at the end
is laid over what the lower one holds there. Where the upper value ends the way with something else,
nothing is left below, and where it holds nothing, the lower value is left as it is.

## Main definitions

* `Stencil.Value.held?` — what a value holds where keys lead.
* `Stencil.Value.TakenOver` — what is taken over as it is when it is laid over something.

## Main results

* `Stencil.Value.step?_merge` — one level of a merge.
* `Stencil.Value.held?_merge_of_held`, `Stencil.Value.held?_merge_of_blocked`,
  `Stencil.Value.held?_merge_of_missing` — any level, by what the upper value holds.
* `Stencil.Value.held?_merge` — the law of merges along keys.
-/

set_option autoImplicit false

namespace Stencil.Value

variable {policy : ArrayPolicy} {base other v w : Value}

/-! ## Where keys lead -/

/-- What a value holds where keys lead from object to object. -/
def held? (v : Value) (keys : List String) : Option Value := v.follow? (keys.map .key)

/-- The first key leads into the value, and the other ones lead on from there. -/
theorem held?_cons (v : Value) (key : String) (keys : List String) :
    v.held? (key :: keys) = (v.step? (.key key)).bind (held? · keys) := rfl

/-- The keys behind others lead on from where those lead. -/
theorem held?_append (v : Value) (p q : List String) :
    v.held? (p ++ q) = (v.held? p).bind (held? · q) := by
  rw [held?, List.map_append, follow?_append]
  rfl

/-- Keys lead into objects only. -/
theorem held?_cons_of_kind (h : v.kind ≠ .object) (key : String) (keys : List String) :
    v.held? (key :: keys) = none := by
  cases v with
  | obj members => exact absurd rfl h
  | null | bool | num | str | arr => rfl

/-- What an object without repeated keys holds under a key has no repeated keys. -/
theorem Distinct.of_step? (h : v.Distinct) {key : String} (hstep : v.step? (.key key) = some w) :
    w.Distinct :=
  hereditary_distinct.of_step? h hstep

/-- What keys lead to in a value without repeated keys has no repeated keys. -/
theorem Distinct.of_held? (h : v.Distinct) {p : List String} (hheld : v.held? p = some w) :
    w.Distinct := by
  induction p generalizing v with
  | nil =>
    cases hheld
    exact h
  | cons key p ih =>
    rw [held?_cons, Option.bind_eq_some_iff] at hheld
    obtain ⟨next, hstep, hnext⟩ := hheld
    exact ih (h.of_step? hstep) hnext

/-! ## One level -/

/-- A value that is no object makes no object when it is laid over something. -/
theorem kind_merge_of_kind (h : other.kind ≠ .object) (base : Value) :
    (merge policy base other).kind ≠ .object := by
  cases other with
  | obj members => exact absurd rfl h
  | arr items => cases base <;> cases policy <;> simp [merge, kind]
  | null | bool | num | str => exact h

/-- Under a key, an object laid over a value leaves what both have there, merged. -/
theorem step?_merge (hkeys : other.keys.Nodup) (hobject : other.kind = .object) (base : Value)
    (key : String) : (merge policy base other).step? (.key key)
      = Option.merge (merge policy) (base.step? (.key key)) (other.step? (.key key)) := by
  cases other with
  | obj upper =>
    cases base with
    | obj members => exact Members.get?_merge hkeys members key
    | null | bool | num | str | arr => exact Option.merge_none_left.symm
  | null | bool | num | str | arr => cases hobject

/-! ## Any level -/

/-- Where the upper value holds something, the merge holds it laid over what the lower one holds.

**Proof sketch.** By induction on the keys. The upper value is an object on the way, so that each
key leads into the merge of what both values have under it, or into the upper value alone. -/
theorem held?_merge_of_held (hother : other.Distinct) (base : Value) {p : List String}
    (h : other.held? p = some w) :
    (merge policy base other).held? p = Option.merge (merge policy) (base.held? p) (some w) := by
  induction p generalizing base other with
  | nil =>
    cases h
    rfl
  | cons key p ih =>
    have hobject : other.kind = .object := by
      by_contra hkind
      rw [held?_cons_of_kind hkind] at h
      cases h
    rw [held?_cons, Option.bind_eq_some_iff] at h
    obtain ⟨next, hstep, hnext⟩ := h
    rw [held?_cons, held?_cons, step?_merge hother.keys hobject, hstep]
    cases base.step? (.key key) with
    | none => exact hnext
    | some under => exact ih (hother.of_step? hstep) under hnext

/-- Below something that is no object in the upper value, the merge holds nothing. -/
theorem held?_merge_of_blocked (hother : other.Distinct) (base : Value) {q : List String}
    (h : other.held? q = some w) (hw : w.kind ≠ .object) (key : String) (keys : List String) :
    (merge policy base other).held? (q ++ key :: keys) = none := by
  rw [held?_append, held?_merge_of_held hother base h]
  cases base.held? q with
  | none => exact held?_cons_of_kind hw key keys
  | some under => exact held?_cons_of_kind (kind_merge_of_kind hw under) key keys

/-- Where the upper value holds nothing, and nothing but objects on the way, the merge holds what
the lower value holds.

**Proof sketch.** By induction on the keys. Either the upper value has nothing under the first key,
and the merge has there what the lower value has; or it has an object there, in which the other keys
lead nowhere. -/
theorem held?_merge_of_missing (hother : other.Distinct) (base : Value) {p : List String}
    (hnone : other.held? p = none)
    (hobjects : ∀ q w, q <+: p → q ≠ p → other.held? q = some w → w.kind = .object) :
    (merge policy base other).held? p = base.held? p := by
  induction p generalizing base other with
  | nil => cases hnone
  | cons key p ih =>
    have hobject : other.kind = .object :=
      hobjects [] other List.nil_prefix (List.cons_ne_nil key p).symm rfl
    rw [held?_cons] at hnone
    rw [held?_cons, held?_cons, step?_merge hother.keys hobject]
    cases hstep : other.step? (.key key) with
    | none => rw [Option.merge_none_right]
    | some next =>
      rw [hstep, Option.bind_some] at hnone
      have hbelow : ∀ q w, q <+: p → q ≠ p → next.held? q = some w → w.kind = .object := by
        intro q w hq hne hheld
        refine hobjects (key :: q) w (List.cons_prefix_cons.2 ⟨rfl, hq⟩) ?_ ?_
        · exact fun h => hne (List.cons.inj h).2
        · rw [held?_cons, hstep, Option.bind_some, hheld]
      cases base.step? (.key key) with
      | none => exact hnone
      | some under => exact ih (hother.of_step? hstep) under hnone hbelow

/-! ## The law -/

/-- What is taken over as it is when it is laid over what is there, if anything: a scalar; an array,
where arrays replace each other or no array is there; and an object where no object is there. -/
inductive TakenOver (policy : ArrayPolicy) (under? : Option Value) : Value → Prop where
  | scalar {v : Value} (h : v.kind ∉ [.array, .object]) : TakenOver policy under? v
  | replacing {items : List Value} (h : policy = .replace) : TakenOver policy under? (.arr items)
  | array {items : List Value} (h : ∀ us, under? ≠ some (.arr us)) :
    TakenOver policy under? (.arr items)
  | object {members : Members} (h : ∀ us, under? ≠ some (.obj us)) :
    TakenOver policy under? (.obj members)

/-- What is taken over is the result of the merge. -/
theorem TakenOver.merge_eq {under? : Option Value} (h : TakenOver policy under? w) :
    Option.merge (merge policy) under? (some w) = some w := by
  cases under? with
  | none => rfl
  | some under =>
    refine congrArg some ?_
    cases h with
    | scalar h => exact merge_of_kind h under
    | replacing h =>
      subst h
      cases under <;> rfl
    | array h =>
      cases under with
      | arr us => exact absurd rfl (h us)
      | null | bool | num | str | obj => rfl
    | object h =>
      cases under with
      | obj us => exact absurd rfl (h us)
      | null | bool | num | str | arr => rfl

/-- **Merges along keys.** No object of the upper value has a key twice. Where keys lead in the
merge, at any depth:

* what the upper value holds there is taken over as it is, but for two arrays that are to be joined
  and two objects;
* of two arrays that are to be joined, the items of the lower one come first;
* where the upper value has something else than an object on the way, nothing is there;
* where it has objects on the way and nothing there, what the lower value holds is there;
* of two objects, the keys of the lower one come first, in their order, and the new ones follow in
  theirs.

**Proof sketch.** Where the upper value holds something, `held?_merge_of_held` leaves the merge of
two values, for the first two parts and the last one. The other two are `held?_merge_of_blocked` and
`held?_merge_of_missing`. -/
theorem held?_merge (hother : other.Distinct) (base : Value) (p : List String) :
    (∀ w, other.held? p = some w → TakenOver policy (base.held? p) w →
      (merge policy base other).held? p = some w)
    ∧ (∀ us ws, policy = .concat → base.held? p = some (.arr us) →
      other.held? p = some (.arr ws) →
      (merge policy base other).held? p = some (.arr (us ++ ws)))
    ∧ ((∃ q w, q <+: p ∧ q ≠ p ∧ other.held? q = some w ∧ w.kind ≠ .object) →
      (merge policy base other).held? p = none)
    ∧ (other.held? p = none →
      (∀ q w, q <+: p → q ≠ p → other.held? q = some w → w.kind = .object) →
      (merge policy base other).held? p = base.held? p)
    ∧ (∀ us ws, base.held? p = some (.obj us) → other.held? p = some (.obj ws) →
      ∃ ms, (merge policy base other).held? p = some (.obj ms)
        ∧ Members.keys ms
          = Members.keys us ++ (Members.keys ws).filter fun key => key ∉ Members.keys us) := by
  refine ⟨?_, ?_, ?_, held?_merge_of_missing hother base, ?_⟩
  · intro w hw htaken
    rw [held?_merge_of_held hother base hw, htaken.merge_eq]
  · rintro us ws rfl hus hws
    rw [held?_merge_of_held hother base hws, hus]
    rfl
  · rintro ⟨q, w, ⟨rest, rfl⟩, hne, hq, hw⟩
    cases rest with
    | nil => exact absurd (List.append_nil q).symm hne
    | cons key keys => exact held?_merge_of_blocked hother base hq hw key keys
  · intro us ws hus hws
    have hkeys : (Members.keys ws).Nodup := (hother.of_held? hws).keys
    refine ⟨Members.merge policy us ws, ?_, Members.keys_merge hkeys us⟩
    rw [held?_merge_of_held hother base hws, hus]
    rfl

/-- Arrays that are joined, an array in the place of a text, an array that blocks the way, a number
that is left as it is and the keys of two objects, all in one merge. -/
theorem held?_merge_of_joined_and_blocked :
    let base : Value := .obj [
      ("a", .obj [("x", .num (.int 1)), ("l", .arr [.null]), ("t", .str "u")]),
      ("n", .obj [("z", .bool true)])]
    let other : Value := .obj [
      ("b", .arr []), ("a", .obj [("l", .arr [.bool false]), ("y", .null), ("t", .arr [])]),
      ("n", .arr [.obj [("z", .null)]])]
    let r := merge .concat base other
    other.Distinct ∧ r.held? ["a", "y"] = some .null ∧ r.held? ["a", "t"] = some (.arr [])
      ∧ r.held? ["a", "l"] = some (.arr [.null, .bool false]) ∧ r.held? ["n", "z"] = none
      ∧ r.held? ["a", "x"] = some (.num (.int 1))
      ∧ ∃ ms, r.held? ["a"] = some (.obj ms) ∧ Members.keys ms = ["x", "l", "t", "y"] := by
  intro base other r
  have hother : other.Distinct := by decide +kernel
  have hlaw := @held?_merge .concat other hother base
  refine ⟨hother, ?_, ?_, ?_, ?_, ?_, ?_⟩
  · exact (hlaw ["a", "y"]).1 .null rfl (.scalar (by decide))
  · exact (hlaw ["a", "t"]).1 (.arr []) rfl (.array fun us h => by cases h)
  · exact (hlaw ["a", "l"]).2.1 [.null] [.bool false] rfl rfl rfl
  · refine (hlaw ["n", "z"]).2.2.1 ⟨["n"], .arr [.obj [("z", .null)]], ?_⟩
    exact ⟨by decide, by decide, rfl, by decide⟩
  · refine (hlaw ["a", "x"]).2.2.2.1 rfl fun q w hq hne hheld => ?_
    rcases List.prefix_cons_iff.1 hq with rfl | ⟨q', rfl, hq'⟩
    · cases hheld
      rfl
    · rcases List.prefix_cons_iff.1 hq' with rfl | ⟨q'', rfl, hq''⟩
      · cases hheld
        rfl
      · exact absurd (by rw [List.prefix_nil.1 hq'']) hne
  · obtain ⟨ms, hms, hkeys⟩ := (hlaw ["a"]).2.2.2.2 _ _ rfl rfl
    exact ⟨ms, hms, hkeys⟩

end Stencil.Value
