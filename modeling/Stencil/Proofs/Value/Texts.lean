import Stencil.Proofs.Numeric.Numeral
import Stencil.Value.Display
import Stencil.Value.Object

/-!
# The texts that a value holds

A value holds texts at every depth, in items and in the values of members; the keys of members are
not among them.

## Main definitions

* `Stencil.Value.texts` — the texts that a value holds.

## Main results

* `Stencil.Value.forall_mem_texts_arr`, `Stencil.Value.forall_mem_texts_obj` — the texts of a
  container, by its items or members.
* `Stencil.Value.opening_not_mem_display` — a value whose texts have no opening brace has none among
  other text.
-/

set_option autoImplicit false

namespace Stencil

variable {P : String → Prop}

/-! ## Texts -/

namespace Value

mutual

/-- The texts that a value holds, at every depth. -/
def texts : Value → List String
  | .str s => [s]
  | .arr items => textsItems items
  | .obj members => textsMembers members
  | .null | .bool _ | .num _ => []

/-- The texts that items hold. -/
def textsItems : List Value → List String
  | [] => []
  | v :: rest => texts v ++ textsItems rest

/-- The texts that the values of members hold. -/
def textsMembers : List (String × Value) → List String
  | [] => []
  | (_, v) :: rest => texts v ++ textsMembers rest

end

/-- All texts of an array are those of its items. -/
theorem forall_mem_texts_arr {items : List Value} :
    (∀ t ∈ (arr items).texts, P t) ↔ ∀ v ∈ items, ∀ t ∈ v.texts, P t := by
  rw [texts]
  induction items with
  | nil => simp [textsItems]
  | cons v rest ih => rw [textsItems, List.forall_mem_append, List.forall_mem_cons, ih]

/-- All texts of an object are those of the values of its members. -/
theorem forall_mem_texts_obj {members : Members} :
    (∀ t ∈ (obj members).texts, P t) ↔ ∀ m ∈ members, ∀ t ∈ m.2.texts, P t := by
  rw [texts]
  induction members with
  | nil => simp [textsMembers]
  | cons m rest ih => rw [textsMembers, List.forall_mem_append, List.forall_mem_cons, ih]

end Value

/-! ## Among other text -/

/-- A character of parts with separators between them is one of a part or of a separator. -/
theorem mem_intercalate {α : Type} {a : α} {sep : List α} {parts : List (List α)}
    (h : a ∈ List.intercalate sep parts) : a ∈ sep ∨ ∃ part ∈ parts, a ∈ part := by
  induction parts with
  | nil => cases h
  | cons part rest ih =>
    cases rest with
    | nil =>
      rw [List.intercalate_singleton] at h
      exact Or.inr ⟨part, List.mem_cons_self, h⟩
    | cons next rest =>
      rw [List.intercalate_cons_cons, List.mem_append, List.mem_append] at h
      rcases h with (h | h) | h
      · exact Or.inr ⟨part, List.mem_cons_self, h⟩
      · exact Or.inl h
      · refine (ih h).imp_right ?_
        rintro ⟨p, hp, ha⟩
        exact ⟨p, List.mem_cons_of_mem part hp, ha⟩

namespace Value

theorem display_null : display .null = "null".toList := by
  unfold display
  rfl

theorem display_bool (b : Bool) :
    display (.bool b) = if b then "true".toList else "false".toList := by
  unfold display
  rfl

theorem display_num (n : Number) : display (.num n) = n.plainText := by
  unfold display
  rfl

theorem display_str (s : String) : display (.str s) = s.toList := by
  unfold display
  rfl

theorem display_arr (items : List Value) :
    display (.arr items) = List.intercalate [','] (displayItems items) := by
  unfold display
  rfl

theorem display_obj (members : Members) :
    display (.obj members) = "[object Object]".toList := by
  unfold display
  rfl

theorem displayItems_cons (v : Value) (rest : List Value) :
    displayItems (v :: rest) = (if v = .null then [] else v.display) :: displayItems rest := by
  rw [displayItems.eq_def]
  cases v <;> rfl

mutual

/-- A value whose texts have no opening brace has none among other text. -/
theorem opening_not_mem_display : (v : Value) → (∀ t ∈ v.texts, '\x7b' ∉ t.toList) →
    '\x7b' ∉ v.display
  | .null => by
    intro _
    rw [display_null]
    decide +kernel
  | .bool b => by
    intro _
    rw [display_bool]
    cases b <;> decide +kernel
  | .num n => by
    intro _ hmem
    rw [display_num] at hmem
    have hchar : Number.isNumeralChar '\x7b' = true := Number.isNumeralChar_of_mem_plainText hmem
    exact absurd hchar (by decide)
  | .str s => by
    intro h
    rw [display_str]
    exact h s List.mem_cons_self
  | .arr items => by
    intro h hmem
    rw [display_arr] at hmem
    rcases mem_intercalate hmem with hmem | ⟨part, hpart, hmem⟩
    · exact absurd hmem (by decide)
    · exact opening_not_mem_displayItems items (forall_mem_texts_arr.1 h) part hpart hmem
  | .obj members => by
    intro _
    rw [display_obj]
    decide +kernel

/-- Items whose texts have no opening brace have none among other text. -/
theorem opening_not_mem_displayItems : (items : List Value) →
    (∀ v ∈ items, ∀ t ∈ v.texts, '\x7b' ∉ t.toList) → ∀ part ∈ displayItems items, '\x7b' ∉ part
  | [] => fun _ part hpart => by cases hpart
  | v :: rest => by
    intro h
    rw [List.forall_mem_cons] at h
    rw [displayItems_cons, List.forall_mem_cons]
    refine ⟨?_, opening_not_mem_displayItems rest h.2⟩
    split
    · exact List.not_mem_nil
    · exact opening_not_mem_display v h.1

end

end Value

end Stencil
