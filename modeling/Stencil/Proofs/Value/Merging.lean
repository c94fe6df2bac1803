import Mathlib.Data.List.Nodup
import Stencil.Merge
import Stencil.Path
import Stencil.Proofs.Value.Members
import Stencil.Proofs.Value.Nodes
import Stencil.Proofs.Value.Texts

/-!
# What merges keep

Sources are laid over members one after the other. As long as no source has a key twice, what is
found under a key afterwards depends on what the members and the sources have under that key only:
it is merged in their order, and those without the key have no part in it. Merging makes neither
texts nor keys, so what all texts or all keys of the parts have in common, those of the whole have.

## Main definitions

* `Stencil.Members.layOver` — what is held under a key after one more source.
* `Stencil.MergeStable` — a property of lists of keys that merges keep.
* `Stencil.Hereditary` — a property of values that containers have from what is in them.

## Main results

* `Stencil.Members.get?_merge`, `Stencil.Members.get?_mergeSources` — what is found under a key.
* `Stencil.Members.keys_merge` — the keys of a merge, in their order.
* `Stencil.hereditary_keyed`, `Stencil.hereditary_texts` — what the keys of all nodes, or all texts,
  have in common is hereditary.
* `Stencil.Hereditary.merge`, `Stencil.Hereditary.mergeSources` — merges keep hereditary properties.
-/

set_option autoImplicit false

namespace Stencil

/-- A value that is no container replaces what it is laid over. -/
theorem Value.merge_of_kind {policy : ArrayPolicy} {v : Value} (h : v.kind ∉ [.array, .object])
    (base : Value) : Value.merge policy base v = v := by
  cases v with
  | null | bool | num | str => rfl
  | arr | obj => simp [Value.kind] at h

/-! ## Keys, and what is found under them -/

namespace Members

variable {policy : ArrayPolicy}

/-- Under a key, a merge leaves what the members and those laid over them have there, merged. -/
theorem get?_merge {upper : Members} (hupper : (keys upper).Nodup) (base : Members) (key : String) :
    get? (merge policy base upper) key
      = Option.merge (Value.merge policy) (get? base key) (get? upper key) := by
  induction upper generalizing base with
  | nil => rw [merge, get?, Option.merge_none_right]
  | cons m rest ih =>
    obtain ⟨k, v⟩ := m
    obtain ⟨hk, hrest⟩ := List.nodup_cons.1 hupper
    have hnone : get? rest k = none := not_mem_keys_iff.1 hk
    rw [merge]
    by_cases hkey : k = key
    · subst hkey
      rw [get?, if_pos rfl]
      cases hbase : get? base k with
      | none => rw [ih hrest, hnone, get?_set_self, Option.merge_none_right, Option.merge]
      | some old => rw [ih hrest, hnone, get?_set_self, Option.merge_none_right, Option.merge]
    · rw [get?, if_neg hkey]
      cases hbase : get? base k with
      | none => rw [ih hrest, get?_set_of_ne (Ne.symm hkey)]
      | some old => rw [ih hrest, get?_set_of_ne (Ne.symm hkey)]

/-- A merge keeps the keys of the members in their places, and puts the new ones behind them in the
order in which they are laid over. -/
theorem keys_merge {upper : Members} (hupper : (keys upper).Nodup) (base : Members) :
    keys (merge policy base upper)
      = keys base ++ (keys upper).filter fun key => key ∉ keys base := by
  induction upper generalizing base with
  | nil => rw [merge, keys, keys, List.map_nil, List.filter_nil, List.append_nil]
  | cons m rest ih =>
    obtain ⟨k, v⟩ := m
    obtain ⟨hk, hrest⟩ := List.nodup_cons.1 hupper
    have hkeys : keys ((k, v) :: rest) = k :: keys rest := rfl
    rw [merge, hkeys, List.filter_cons]
    by_cases hmem : k ∈ keys base
    · rw [if_neg (by simpa using hmem)]
      cases hbase : get? base k with
      | none => exact absurd hmem (not_mem_keys_iff.2 hbase)
      | some old =>
        dsimp only
        rw [ih hrest, keys_set_of_get?_eq_some hbase]
    · -- the new key is on the list from here on, and does not come again
      have hfilter : (keys rest).filter (fun key => key ∉ keys base ++ [k])
          = (keys rest).filter fun key => key ∉ keys base := by
        refine List.filter_congr fun key hkey => ?_
        have hne : key ≠ k := fun h => hk (h ▸ hkey)
        simp [hne]
      have hbase : get? base k = none := not_mem_keys_iff.1 hmem
      rw [if_pos (by simpa using hmem), hbase]
      dsimp only
      rw [ih hrest, keys_set_of_get?_eq_none hbase, hfilter, List.append_assoc]
      rfl

/-- What is held under a key after one more source has been laid over. -/
def layOver (policy : ArrayPolicy) (key : String) (held? : Option Value) (source : Value) :
    Option Value :=
  Option.merge (Value.merge policy) held? (source.step? (.key key))

/-- Under a key, sources leave what they have there, laid over what the members have there. -/
theorem get?_mergeSources {sources : List Value} (hsources : ∀ s ∈ sources, s.keys.Nodup)
    (base : Members) (key : String) :
    get? (mergeSources policy base sources) key
      = sources.foldl (layOver policy key) (get? base key) := by
  induction sources generalizing base with
  | nil => rfl
  | cons source rest ih =>
    rw [List.forall_mem_cons] at hsources
    have hsource : get? (mergeSource policy base source) key
        = layOver policy key (get? base key) source := by
      unfold mergeSource layOver
      cases source with
      | obj upper => exact get?_merge hsources.1 base key
      | null | bool | num | str | arr => exact Option.merge_none_right.symm
    rw [List.foldl_cons, ← hsource]
    exact ih hsources.2 (mergeSource policy base source)

end Members

/-! ## Hereditary properties -/

/-- A property of lists of keys that stays when keys are removed, and when a key of a second list
with the property is added. -/
structure MergeStable (K : List String → Prop) : Prop where
  nil : K []
  sublist : ∀ {l l' : List String}, l'.Sublist l → K l → K l'
  append : ∀ {base upper : List String} {key : String}, K base → K upper → key ∈ upper →
    key ∉ base → K (base ++ [key])

/-- Lists without a repeated key. -/
theorem mergeStable_nodup : MergeStable List.Nodup where
  nil := List.nodup_nil
  sublist := fun hsub h => h.sublist hsub
  append := by
    intro base upper key hbase _ _ hkey
    rw [List.nodup_append]
    refine ⟨hbase, List.nodup_singleton key, fun a ha b hb => ?_⟩
    rw [List.mem_singleton.1 hb]
    rintro rfl
    exact hkey ha

/-- Lists without a certain key. -/
theorem mergeStable_not_mem (key : String) : MergeStable (key ∉ ·) where
  nil := List.not_mem_nil
  sublist := fun hsub h hmem => h (hsub.mem hmem)
  append := by
    intro base upper other hbase hupper hother _ hmem
    rcases List.mem_append.1 hmem with hmem | hmem
    · exact hbase hmem
    · rw [List.mem_singleton.1 hmem] at hupper
      exact hupper hother

/-- A property of values that a container has exactly when its items or the values of its members
have it and its keys have a property that merges keep. -/
structure Hereditary (P : Value → Prop) (K : List String → Prop) : Prop where
  keys : MergeStable K
  arr_iff : ∀ {items : List Value}, P (.arr items) ↔ ∀ v ∈ items, P v
  obj_iff : ∀ {members : Members},
    P (.obj members) ↔ K (Members.keys members) ∧ ∀ m ∈ members, P m.2

/-- What the keys of all nodes have in common. -/
theorem hereditary_keyed {K : List String → Prop} (hK : MergeStable K) :
    Hereditary (Value.Keyed K) K where
  keys := hK
  arr_iff := Value.keyed_arr_iff hK.nil
  obj_iff := Value.keyed_obj_iff

/-- Having no object in which a key comes twice. -/
theorem hereditary_distinct : Hereditary Value.Distinct List.Nodup :=
  hereditary_keyed mergeStable_nodup

/-- Having no object with a certain key. -/
theorem hereditary_lacksKey (key : String) : Hereditary (Value.LacksKey key) (key ∉ ·) :=
  hereditary_keyed (mergeStable_not_mem key)

/-- What all texts have in common. -/
theorem hereditary_texts (Q : String → Prop) :
    Hereditary (fun v => ∀ t ∈ v.texts, Q t) fun _ => True where
  keys := ⟨trivial, fun _ _ => trivial, fun _ _ _ _ => trivial⟩
  arr_iff := Value.forall_mem_texts_arr
  obj_iff := Value.forall_mem_texts_obj.trans (and_iff_right trivial).symm

namespace Hereditary

variable {P : Value → Prop} {K : List String → Prop}

mutual

/-- A hereditary property of two values is one of the second laid over the first. -/
theorem merge (h : Hereditary P K) (policy : ArrayPolicy) {base : Value} (hbase : P base) :
    (upper : Value) → P upper → P (Value.merge policy base upper)
  | .obj upper => by
    intro hupper
    cases base with
    | obj members =>
      rw [h.obj_iff] at hbase hupper
      rw [Value.merge, h.obj_iff]
      exact h.mergeMembers policy hupper.1 hbase.1 hbase.2 upper (fun _ => id) hupper.2
    | _ => exact hupper
  | .arr upper => by
    intro hupper
    cases base with
    | arr items =>
      cases policy with
      | concat =>
        rw [h.arr_iff] at hbase hupper
        rw [Value.merge, h.arr_iff, List.forall_mem_append]
        exact ⟨hbase, hupper⟩
      | replace => exact hupper
    | _ => exact hupper
  | .null | .bool _ | .num _ | .str _ => fun hupper => hupper

/-- A hereditary property of members is one of members laid over others. Those on top may be some of
those with the keys `all`. -/
theorem mergeMembers (h : Hereditary P K) (policy : ArrayPolicy) {base : Members}
    {all : List String} (hall : K all) (hkeys : K (Members.keys base))
    (hbase : ∀ m ∈ base, P m.2) : (upper : List (String × Value)) →
      (∀ key ∈ Members.keys upper, key ∈ all) → (∀ m ∈ upper, P m.2) →
      K (Members.keys (Members.merge policy base upper))
        ∧ ∀ m ∈ Members.merge policy base upper, P m.2
  | [] => fun _ _ => ⟨hkeys, hbase⟩
  | (key, v) :: rest => by
    intro hmem hupper
    rw [List.forall_mem_cons] at hupper
    obtain ⟨hv, hrest⟩ := hupper
    have hkey : key ∈ all := hmem key List.mem_cons_self
    have hmem' : ∀ k ∈ Members.keys rest, k ∈ all := by
      intro k hk
      exact hmem k (List.mem_cons_of_mem key hk)
    have hset : ∀ w : Value, P w → ∀ m ∈ Members.set base key w, P m.2 := by
      intro w hw m hm
      rcases Members.mem_set hm with rfl | hm
      · exact hw
      · exact hbase m hm
    rw [Members.merge]
    split
    · next old hold =>
      have hmerged := h.merge policy (hbase _ (Members.mem_of_get? hold)) v hv
      refine h.mergeMembers policy hall ?_ (hset _ hmerged) rest hmem' hrest
      rwa [Members.keys_set_of_get?_eq_some hold]
    · next hnone =>
      refine h.mergeMembers policy hall ?_ (hset v hv) rest hmem' hrest
      rw [Members.keys_set_of_get?_eq_none hnone]
      exact h.keys.append hkeys hall hkey (Members.not_mem_keys_iff.2 hnone)

end

/-- A hereditary property of an object and of sources is one of the object with the sources laid
over it. -/
theorem mergeSources (h : Hereditary P K) (policy : ArrayPolicy) {base : Members}
    {sources : List Value} (hbase : P (.obj base)) (hsources : ∀ s ∈ sources, P s) :
    P (.obj (Members.mergeSources policy base sources)) := by
  induction sources generalizing base with
  | nil => exact hbase
  | cons source rest ih =>
    rw [List.forall_mem_cons] at hsources
    show P (.obj (Members.mergeSources policy (Members.mergeSource policy base source) rest))
    refine ih ?_ hsources.2
    cases source with
    | obj upper => exact h.merge policy hbase (.obj upper) hsources.1
    | _ => exact hbase

/-- A hereditary property of an object is one of the object without some member. -/
theorem erase (h : Hereditary P K) {members : Members} (hmembers : P (.obj members))
    (key : String) : P (.obj (Members.erase members key)) := by
  rw [h.obj_iff] at hmembers ⊢
  obtain ⟨hkeys, hvalues⟩ := hmembers
  refine ⟨h.keys.sublist Members.keys_erase_sublist hkeys, fun m hm => ?_⟩
  exact hvalues m (Members.mem_of_mem_erase hm)

/-- What is held under a key has a hereditary property when all that is laid over there has. -/
theorem layOver (h : Hereditary P K) {policy : ArrayPolicy} {key : String} {sources : List Value}
    (hsources : ∀ s ∈ sources, ∀ v ∈ s.step? (.key key), P v) {held? : Option Value}
    (hheld : ∀ v, held? = some v → P v) :
    ∀ v, sources.foldl (Members.layOver policy key) held? = some v → P v := by
  induction sources generalizing held? with
  | nil => exact hheld
  | cons source rest ih =>
    rw [List.forall_mem_cons] at hsources
    obtain ⟨hsource, hrest⟩ := hsources
    show ∀ v, rest.foldl (Members.layOver policy key) (Members.layOver policy key held? source)
      = some v → P v
    refine ih hrest fun v hv => ?_
    rw [Members.layOver] at hv
    cases hstep : source.step? (.key key) with
    | none =>
      rw [hstep, Option.merge_none_right] at hv
      exact hheld v hv
    | some upper =>
      rw [hstep] at hv
      have hupper : P upper := hsource upper hstep
      cases held? with
      | none =>
        cases hv
        exact hupper
      | some base =>
        cases hv
        exact h.merge policy (hheld base rfl) upper hupper

/-- What an object holds under a key has the hereditary properties of the object. -/
theorem of_step? (h : Hereditary P K) {key : String} {v w : Value} (hv : P v)
    (hstep : v.step? (.key key) = some w) : P w := by
  cases v with
  | obj members => exact (h.obj_iff.1 hv).2 _ (Members.mem_of_get? hstep)
  | null | bool | num | str | arr => cases hstep

end Hereditary

end Stencil
