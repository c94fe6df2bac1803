import Stencil.Value.Object

/-!
# Members before and after

Where members come from when some are written, removed or changed, and which keys there are then.

## Main results

* `Stencil.Members.mem_set`, `Stencil.Members.mem_of_mem_erase`,
  `Stencil.Members.mem_filterMap_value` — where a member comes from.
* `Stencil.Members.get?_of_mem`, `Stencil.Members.get?_erase_of_ne`,
  `Stencil.Members.get?_filterMap_value` — what is found under a key.
* `Stencil.Members.keys_set_of_get?_eq_some`, `Stencil.Members.keys_set_of_get?_eq_none`,
  `Stencil.Members.keys_erase_sublist`, `Stencil.Members.keys_filterMap_value_sublist` — the keys.
-/

set_option autoImplicit false

namespace Stencil.Members

variable {α β : Type} {ms : List (String × α)} {key other : String} {v w : α}

/-! ## Members -/

/-- What is found under a key is a member. -/
theorem mem_of_get? (h : get? ms key = some v) : (key, v) ∈ ms := by
  induction ms with
  | nil => cases h
  | cons m rest ih =>
    rw [get?] at h
    split at h
    · next hkey =>
      cases h
      rw [← hkey]
      exact List.mem_cons_self
    · exact List.mem_cons_of_mem m (ih h)

/-- Where no key comes twice, every member is found under its key. -/
theorem get?_of_mem (hkeys : (keys ms).Nodup) {m : String × α} (hm : m ∈ ms) :
    get? ms m.1 = some m.2 := by
  induction ms with
  | nil => cases hm
  | cons n rest ih =>
    rw [keys, List.map_cons, List.nodup_cons] at hkeys
    rw [get?]
    rcases List.mem_cons.1 hm with rfl | hm
    · rw [if_pos rfl]
    · have hne : n.1 ≠ m.1 := fun h => hkeys.1 (h ▸ List.mem_map_of_mem hm)
      rw [if_neg hne, ih hkeys.2 hm]

/-- Nothing is found under a key exactly when no member has it. -/
theorem get?_eq_none_iff : get? ms key = none ↔ ∀ m ∈ ms, m.1 ≠ key := by
  induction ms with
  | nil => simp [get?]
  | cons m rest ih =>
    rw [get?, List.forall_mem_cons, ← ih]
    split
    · next hkey => simp [hkey]
    · next hkey => simp [hkey]

/-- After a write, a member is the written one or was there. -/
theorem mem_set {m : String × α} (h : m ∈ set ms key v) : m = (key, v) ∨ m ∈ ms := by
  induction ms with
  | nil => exact Or.inl (List.mem_singleton.1 h)
  | cons n rest ih =>
    rw [set] at h
    split at h
    · next hkey =>
      rcases List.mem_cons.1 h with rfl | h
      · exact Or.inl (by rw [hkey])
      · exact Or.inr (List.mem_cons_of_mem n h)
    · rcases List.mem_cons.1 h with rfl | h
      · exact Or.inr List.mem_cons_self
      · exact (ih h).imp_right (List.mem_cons_of_mem n)

/-- What a removal leaves was there. -/
theorem mem_of_mem_erase {m : String × α} (h : m ∈ erase ms key) : m ∈ ms :=
  (List.mem_filter.1 h).1

/-- Where the values of members are changed or dropped, what is left keeps its key. -/
theorem mem_filterMap_value {f : α → Option β} {m : String × β}
    (h : m ∈ ms.filterMap fun n => (f n.2).map fun v => (n.1, v)) :
    ∃ v, (m.1, v) ∈ ms ∧ f v = some m.2 := by
  obtain ⟨n, hn, hmap⟩ := List.mem_filterMap.1 h
  obtain ⟨w, hw, rfl⟩ := Option.map_eq_some_iff.1 hmap
  exact ⟨n.2, hn, hw⟩

/-! ## What is found under a key -/

/-- Removing a key keeps what is found under the others. -/
theorem get?_erase_of_ne (h : other ≠ key) : get? (erase ms key) other = get? ms other := by
  induction ms with
  | nil => rfl
  | cons m rest ih =>
    rw [erase_cons, get?]
    by_cases hk : m.1 = key
    · have hother : m.1 ≠ other := by
        rw [hk]
        exact h.symm
      rw [if_pos hk, if_neg hother, ih]
    · rw [if_neg hk, get?, ih]

/-- Where the values of members are changed or dropped, a member whose value is kept is still found
under its key. -/
theorem get?_filterMap_value {f : α → Option β} {u : β} (hv : get? ms key = some v)
    (hu : f v = some u) :
    get? (ms.filterMap fun m => (f m.2).map fun v => (m.1, v)) key = some u := by
  induction ms with
  | nil => cases hv
  | cons m rest ih =>
    rw [get?] at hv
    split at hv
    · next hk =>
      cases hv
      rw [List.filterMap_cons, hu, Option.map_some]
      exact if_pos hk
    · next hk =>
      rw [List.filterMap_cons]
      cases f m.2 with
      | none => exact ih hv
      | some x => exact (if_neg hk).trans (ih hv)

/-! ## Keys -/

/-- The keys of members are those under which something is found. -/
theorem not_mem_keys_iff : key ∉ keys ms ↔ get? ms key = none := by
  rw [get?_eq_none_iff]
  simp only [keys, List.mem_map, not_exists, not_and, ne_eq]

/-- Writing a key that is there keeps the keys. -/
theorem keys_set_of_get?_eq_some (h : get? ms key = some w) : keys (set ms key v) = keys ms := by
  induction ms with
  | nil => cases h
  | cons m rest ih =>
    by_cases hk : m.1 = key
    · simp [set, keys, hk]
    · rw [get?, if_neg hk] at h
      have hrest := ih h
      simp only [set, if_neg hk, keys, List.map_cons] at hrest ⊢
      rw [hrest]

/-- Writing a new key puts it behind the others. -/
theorem keys_set_of_get?_eq_none (h : get? ms key = none) :
    keys (set ms key v) = keys ms ++ [key] := by
  induction ms with
  | nil => rfl
  | cons m rest ih =>
    by_cases hk : m.1 = key
    · rw [get?, if_pos hk] at h
      cases h
    · rw [get?, if_neg hk] at h
      have hrest := ih h
      simp only [set, if_neg hk, keys, List.map_cons, List.cons_append] at hrest ⊢
      rw [hrest]

/-- Removing a key leaves some of the keys. -/
theorem keys_erase_sublist : (keys (erase ms key)).Sublist (keys ms) :=
  List.filter_sublist.map Prod.fst

/-- Where the values of members are changed or dropped, some of the keys are left. -/
theorem keys_filterMap_value_sublist (f : α → Option β) :
    (keys (ms.filterMap fun n => (f n.2).map fun v => (n.1, v))).Sublist (keys ms) := by
  induction ms with
  | nil => exact List.Sublist.slnil
  | cons m rest ih =>
    rw [List.filterMap_cons]
    cases f m.2 with
    | none => exact ih.cons m.1
    | some w => exact ih.cons_cons m.1

end Stencil.Members
