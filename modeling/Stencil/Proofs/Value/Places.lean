import Mathlib.Data.List.Nodup
import Stencil.Proofs.Value.Nodes

/-!
# The places of a value

A step leads from an object to the value of a member, by its key, or from an array to an item, by
its position. A place is a list of steps from the root, and what stands at it is a node. The texts
of a value are listed with their places in document order.

## Main definitions

* `Stencil.Step`, `Stencil.Place` — a step down, and steps in turn.
* `Stencil.Value.children` — what one step leads to.
* `Stencil.Value.WellFormed` — what any value in memory is.
* `Stencil.Value.At` — a node stands at a place.
* `Stencil.Value.placedTexts` — the texts of a value with their places.

## Main results

* `Stencil.Value.childInduction` — induction from the children of a value to the value.
* `Stencil.Value.placedTexts_of_kind` — the texts of a container, by its children.
* `Stencil.Value.mem_placedTexts_iff` — the listed texts are those that stand at a place.
* `Stencil.Value.nodup_texts_place` — no two texts have places with the same written steps.
-/

set_option autoImplicit false

namespace Stencil

/-! ## Steps -/

/-- A step down into a value: to the member with a key, or to the item at a position. -/
inductive Step where
  | key (name : String)
  | position (i : Nat)
deriving DecidableEq, Inhabited

/-- The written form of a step: a key as it is, a position in decimal digits. -/
def Step.text : Step → List Char
  | .key name => name.toList
  | .position i => Nat.toDigits 10 i

/-- The steps from the root of a value to one of its nodes. -/
abbrev Place := List Step

/-- Different numbers have different digits. -/
theorem toDigits_injective {i j : Nat} (h : Nat.toDigits 10 i = Nat.toDigits 10 j) : i = j := by
  calc i = Nat.ofDigitChars 10 (Nat.toDigits 10 i) 0 := Nat.ofDigitChars_ten_toDigits.symm
    _ = Nat.ofDigitChars 10 (Nat.toDigits 10 j) 0 := by rw [h]
    _ = j := Nat.ofDigitChars_ten_toDigits

namespace Value

/-! ## Children -/

/-- The items of an array or the values of the members of an object, each with the step that leads
to it. -/
def children : Value → List (Step × Value)
  | .arr items => items.zipIdx.map fun c => (.position c.2, c.1)
  | .obj members => members.map fun m => (.key m.1, m.2)
  | .null | .bool _ | .num _ | .str _ => []

/-- A child is an item of an array or the value of a member. -/
theorem sizeOf_lt_of_mem_children {v : Value} {c : Step × Value} (h : c ∈ v.children) :
    sizeOf c.2 < sizeOf v := by
  cases v with
  | arr items =>
    obtain ⟨⟨w, i⟩, hw, rfl⟩ := List.mem_map.1 h
    have hlt : sizeOf w < sizeOf items :=
      List.sizeOf_lt_of_mem (List.fst_mem_of_mem_zipIdx hw)
    simp only [arr.sizeOf_spec]
    omega
  | obj members =>
    obtain ⟨⟨k, w⟩, hm, rfl⟩ := List.mem_map.1 h
    have hlt := List.sizeOf_lt_of_mem hm
    simp only [Prod.mk.sizeOf_spec, obj.sizeOf_spec] at hlt ⊢
    omega
  | null | bool | num | str => cases h

/-- A property that texts have, and that passes from the children of any other value to the value,
holds of all values. -/
@[elab_as_elim]
theorem childInduction {P : Value → Prop} (text : ∀ s, P (.str s))
    (other : ∀ v, v.kind ≠ .string → (∀ c ∈ v.children, P c.2) → P v) (v : Value) : P v := by
  by_cases h : v.kind = .string
  · cases v with
    | str s => exact text s
    | null | bool | num | arr | obj => cases h
  · exact other v h fun c hc =>
      have := sizeOf_lt_of_mem_children hc
      childInduction text other c.2
termination_by sizeOf v

/-- The nodes of a child are nodes of the value. -/
theorem subtrees_subset_of_mem_children {v : Value} {c : Step × Value} (h : c ∈ v.children) :
    c.2.subtrees ⊆ v.subtrees := by
  cases v with
  | arr items =>
    obtain ⟨⟨w, i⟩, hw, rfl⟩ := List.mem_map.1 h
    rw [subtrees_arr]
    intro n hn
    exact List.mem_cons_of_mem _ (List.mem_flatMap.2 ⟨w, List.fst_mem_of_mem_zipIdx hw, hn⟩)
  | obj members =>
    obtain ⟨m, hm, rfl⟩ := List.mem_map.1 h
    rw [subtrees_obj]
    intro n hn
    exact List.mem_cons_of_mem _ (List.mem_flatMap.2 ⟨m, hm, hn⟩)
  | null | bool | num | str => cases h

/-- The steps to the children of a node are written differently, as far as its keys are
different. -/
theorem nodup_text_children {v : Value} (h : v.keys.Nodup) :
    (v.children.map fun c => c.1.text).Nodup := by
  cases v with
  | arr items =>
    have hpositions : (items.zipIdx.map Prod.snd).Nodup := by
      rw [List.zipIdx_map_snd]
      exact List.nodup_range'
    rw [children, List.map_map]
    have hdigits := List.Nodup.map (f := Nat.toDigits 10) (fun _ _ => toDigits_injective) hpositions
    rwa [List.map_map] at hdigits
  | obj members =>
    rw [children, List.map_map]
    have hkeys := List.Nodup.map (f := String.toList) (fun _ _ => String.toList_inj.1) h
    rwa [keys, Members.keys, List.map_map] at hkeys
  | null | bool | num | str => exact List.nodup_nil

/-- What any value in memory is: no object has two members with one key, and every length fits 64
bits with a sign. -/
structure WellFormed (v : Value) : Prop where
  distinct : v.Distinct
  fitsSigned_length : ∀ n ∈ v.subtrees, fitsSigned n.children.length

instance instDecidableWellFormed (v : Value) : Decidable v.WellFormed :=
  decidable_of_iff (v.Distinct ∧ ∀ n ∈ v.subtrees, fitsSigned n.children.length)
    ⟨fun ⟨hd, hl⟩ => ⟨hd, hl⟩, fun ⟨hd, hl⟩ => ⟨hd, hl⟩⟩

/-- The children of a well-formed value are well-formed. -/
theorem WellFormed.of_mem_children {v : Value} (h : v.WellFormed) {c : Step × Value}
    (hc : c ∈ v.children) : c.2.WellFormed :=
  ⟨fun n hn => h.distinct n (subtrees_subset_of_mem_children hc hn),
    fun n hn => h.fitsSigned_length n (subtrees_subset_of_mem_children hc hn)⟩

/-! ## Nodes at places -/

/-- A node of a value stands at a place. -/
inductive At : Value → Place → Value → Prop where
  | root (v : Value) : At v [] v
  | step {v w : Value} {c : Step × Value} {place : Place} :
    c ∈ v.children → At c.2 place w → At v (c.1 :: place) w

/-- A text of a value, and its place. -/
structure PlacedText where
  place : Place
  text : String
deriving DecidableEq, Inhabited

/-- The text seen from one step above. -/
def PlacedText.below (step : Step) (t : PlacedText) : PlacedText := ⟨step :: t.place, t.text⟩

mutual

/-- The texts of a value with their places, in document order. -/
def placedTexts : Value → List PlacedText
  | .str s => [⟨[], s⟩]
  | .arr items => placedTextsItems 0 items
  | .obj members => placedTextsMembers members
  | .null | .bool _ | .num _ => []

/-- The texts of items, the first of which is at position `i`. -/
def placedTextsItems (i : Nat) : List Value → List PlacedText
  | [] => []
  | v :: rest => (placedTexts v).map (.below (.position i)) ++ placedTextsItems (i + 1) rest

/-- The texts of the values of members. -/
def placedTextsMembers : List (String × Value) → List PlacedText
  | [] => []
  | (key, v) :: rest => (placedTexts v).map (.below (.key key)) ++ placedTextsMembers rest

end

/-- The texts of items, by their positions. -/
theorem placedTextsItems_eq (i : Nat) (items : List Value) :
    placedTextsItems i items
      = (items.zipIdx i).flatMap fun c => c.1.placedTexts.map (.below (.position c.2)) := by
  induction items generalizing i with
  | nil => rfl
  | cons v rest ih => rw [placedTextsItems, ih, List.zipIdx_cons, List.flatMap_cons]

/-- The texts of the values of members, by their keys. -/
theorem placedTextsMembers_eq (members : Members) :
    placedTextsMembers members
      = members.flatMap fun m => m.2.placedTexts.map (.below (.key m.1)) := by
  induction members with
  | nil => rfl
  | cons m rest ih => rw [placedTextsMembers, ih, List.flatMap_cons]

/-- The texts of a value that is no text itself are those of its children. -/
theorem placedTexts_of_kind {v : Value} (h : v.kind ≠ .string) :
    v.placedTexts = v.children.flatMap fun c => c.2.placedTexts.map (.below c.1) := by
  cases v with
  | str s => exact absurd rfl h
  | arr items => rw [placedTexts, placedTextsItems_eq, children, List.flatMap_map]
  | obj members => rw [placedTexts, placedTextsMembers_eq, children, List.flatMap_map]
  | null | bool | num => rfl

/-- The listed texts are those that stand at a place. -/
theorem mem_placedTexts_iff {v : Value} {t : PlacedText} :
    t ∈ v.placedTexts ↔ v.At t.place (.str t.text) := by
  obtain ⟨place, text⟩ := t
  induction v using childInduction generalizing place with
  | text s =>
    rw [placedTexts, List.mem_singleton]
    constructor
    · rintro ⟨⟩
      exact .root _
    · rintro (_ | ⟨hc, -⟩)
      · rfl
      · cases hc
  | other v hkind ih =>
    rw [placedTexts_of_kind hkind, List.mem_flatMap]
    constructor
    · rintro ⟨c, hc, hmem⟩
      obtain ⟨⟨rest, text⟩, hu, ⟨⟩⟩ := List.mem_map.1 hmem
      exact .step hc ((ih c hc rest).1 hu)
    · rintro (_ | ⟨hc, hat⟩)
      · exact absurd rfl hkind
      · exact ⟨_, hc, List.mem_map.2 ⟨⟨_, text⟩, (ih _ hc _).2 hat, rfl⟩⟩

/-- No two texts of a value have places with the same written steps, as far as no object has two
members with one key.

**Proof sketch.** By induction from the children: the texts of one child have different places, and
the places of the texts of two children differ in their first step. -/
theorem nodup_texts_place {v : Value} (h : v.Distinct) :
    (v.placedTexts.map fun t => t.place.map Step.text).Nodup := by
  induction v using childInduction with
  | text s => exact List.nodup_singleton _
  | other v hkind ih =>
    have hbelow : ∀ c : Step × Value,
        (c.2.placedTexts.map (PlacedText.below c.1)).map (fun t => t.place.map Step.text)
          = (c.2.placedTexts.map fun t => t.place.map Step.text).map (List.cons c.1.text) := by
      intro c
      rw [List.map_map, List.map_map]
      rfl
    rw [placedTexts_of_kind hkind, List.map_flatMap, List.nodup_flatMap]
    constructor
    · intro c hc
      have hdistinct : c.2.Distinct := fun n hn => h n (subtrees_subset_of_mem_children hc hn)
      rw [hbelow]
      exact (ih c hc hdistinct).map List.cons_injective
    · have hsteps := nodup_text_children h.keys
      rw [List.Nodup, List.pairwise_map] at hsteps
      refine hsteps.imp fun {c d} hne => ?_
      show List.Disjoint _ _
      dsimp only
      rw [hbelow, hbelow, List.disjoint_left]
      rintro names hc hd
      obtain ⟨_, -, rfl⟩ := List.mem_map.1 hc
      obtain ⟨_, -, heq⟩ := List.mem_map.1 hd
      exact hne (List.cons.inj heq).1.symm

end Value

end Stencil
