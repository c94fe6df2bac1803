import Stencil.Proofs.Path.Written

/-!
# Walks along written paths

Following a written path is a walk along the names between its dots. Whether a name stands for a
member or for an item is up to the value that has been reached: an object has a member with this
very name or none, and an array is asked for the item whose position the name writes.

## Main definitions

* `Stencil.Path.names` — the names of a written path.
* `Stencil.Value.position` — the position that an index stands for, from the front.
* `Stencil.Value.Leads`, `Stencil.Value.Walk` — where a name, and where names lead.

## Main results

* `Stencil.Value.step?_ofText_eq_some_iff`, `Stencil.Value.follow?_map_ofText_eq_some_iff` — one
  step, and all steps.
* `Stencil.Path.ofText_append` — the steps of two paths with a dot between them.
* `Stencil.Value.fitsSigned_position` — positions stay within 64 bits.
* `Stencil.Value.get?_iff_walk` — the value at the end of a written path.
-/

set_option autoImplicit false

namespace Stencil

/-- The decimal text of a whole number is its usual one. -/
theorem Decimal.toList_toString (i : Int) : (toString i).toList = Decimal.wholeText i := by
  cases i with
  | ofNat n =>
    have hpos : ¬ Int.ofNat n < 0 := by simp
    rw [wholeText, if_neg hpos]
    exact Nat.toList_repr
  | negSucc n =>
    have hneg : Int.negSucc n < 0 := Int.negSucc_lt_zero n
    have htext : toString (Int.negSucc n) = "-" ++ Nat.repr (n + 1) := rfl
    rw [wholeText, if_pos hneg, htext, String.toList_append, Nat.toList_repr]
    rfl

/-- The names of a written path: the texts between its dots, empty ones left out. -/
def Path.names (path : String) : List (List Char) := (path.toList.splitOn '.').filter (· ≠ [])

/-- Two paths with a dot between them have the steps of both. -/
theorem Path.ofText_append (p q : List Char) :
    Path.ofText (p ++ '.' :: q) = Path.ofText p ++ Path.ofText q := by
  rw [Path.ofText, List.splitOn_append_cons_self, List.filter_append, List.map_append]
  rfl

namespace Value

variable {v next w : Value} {name : List Char} {names : List (List Char)}

/-! ## Positions -/

/-- The position of the item that an index stands for, in an array of some length: a negative one
counts from the end. -/
def position (length : Nat) (i : Int) : Int := if i < 0 then length + i else i

/-- An item is looked up at its position, unless that is in front of the first one. -/
theorem item?_eq (items : List Value) (i : Int) : item? items i
    = if position items.length i < 0 then none else items[(position items.length i).toNat]? := rfl

/-- An index leads to the item at its position, and nowhere when there is none. -/
theorem item?_eq_some_iff {items : List Value} {i : Int} :
    item? items i = some v
      ↔ ∃ k : Nat, (k : Int) = position items.length i ∧ items[k]? = some v := by
  rw [item?_eq]
  by_cases hneg : position items.length i < 0
  · rw [if_pos hneg]
    constructor
    · intro h
      cases h
    · rintro ⟨k, hk, -⟩
      omega
  · rw [if_neg hneg]
    constructor
    · intro h
      exact ⟨_, Int.toNat_of_nonneg (by omega), h⟩
    · rintro ⟨k, hk, h⟩
      rwa [← hk, Int.toNat_natCast]

/-- Within 64 bits, the position that an index stands for is within 64 bits. -/
theorem fitsSigned_position {length : Nat} {i : Int} (hlength : fitsSigned length = true)
    (hi : fitsSigned i = true) : fitsSigned (position length i) = true := by
  simp only [fitsSigned, Bool.and_eq_true, decide_eq_true_eq] at hlength hi ⊢
  unfold position
  split <;> omega

/-! ## Walks -/

/-- A name leads from an object to the member with this very name, and from an array to an item, if
it is the decimal text of a whole number of 64 bits: to the item at that position, counted from the
end when the number is negative. From any other value it leads nowhere. -/
inductive Leads : Value → List Char → Value → Prop where
  | member {members : Members} {name : List Char} {v : Value} :
    Members.get? members (String.ofList name) = some v → Leads (.obj members) name v
  | item {items : List Value} {i : Int} {k : Nat} {v : Value} : fitsSigned i = true →
    (k : Int) = (if i < 0 then items.length + i else i) → items[k]? = some v →
    Leads (.arr items) (toString i).toList v

/-- Names lead to a value one after the other. -/
inductive Walk : Value → List (List Char) → Value → Prop where
  | done (v : Value) : Walk v [] v
  | step {v next w : Value} {name : List Char} {names : List (List Char)} :
    Leads v name next → Walk next names w → Walk v (name :: names) w

/-- The step that a name writes goes where the name leads.

**Proof sketch.** An object looks a step up by its text, which is the name whatever the step is. A
name that writes an index is the decimal text of this index and of no other one. -/
theorem step?_ofText_eq_some_iff : v.step? (.ofText name) = some next ↔ Leads v name next := by
  constructor
  · intro h
    cases v with
    | obj members =>
      rw [step?, Segment.text_ofText] at h
      exact .member h
    | arr items =>
      cases hs : Segment.ofText name with
      | key key =>
        rw [hs] at h
        cases h
      | index i =>
        obtain ⟨hfits, rfl⟩ := Segment.ofText_eq_index_iff.1 hs
        rw [hs, step?, item?_eq_some_iff] at h
        obtain ⟨k, hk, hitem⟩ := h
        rw [← Decimal.toList_toString]
        exact .item hfits hk hitem
    | null | bool | num | str => cases h
  · rintro (hmember | ⟨hfits, hk, hitem⟩)
    · rw [step?, Segment.text_ofText, hmember]
    · rw [Decimal.toList_toString, Segment.ofText_eq_index_iff.2 ⟨hfits, rfl⟩, step?,
        item?_eq_some_iff]
      exact ⟨_, hk, hitem⟩

/-- The steps that names write go where the names lead. -/
theorem follow?_map_ofText_eq_some_iff :
    v.follow? (names.map .ofText) = some w ↔ Walk v names w := by
  induction names generalizing v with
  | nil =>
    constructor
    · intro h
      cases h
      exact .done _
    · rintro ⟨⟩
      rfl
  | cons name names ih =>
    rw [List.map_cons, follow?, Option.bind_eq_some_iff]
    constructor
    · rintro ⟨next, hstep, hrest⟩
      exact .step (step?_ofText_eq_some_iff.1 hstep) (ih.1 hrest)
    · rintro (_ | ⟨hleads, hwalk⟩)
      exact ⟨_, step?_ofText_eq_some_iff.2 hleads, ih.2 hwalk⟩

/-- Two paths with a dot between them are followed one after the other. -/
theorem get?_append_dot (v : Value) (p q : String) :
    v.get? (p ++ "." ++ q) = (v.get? p).bind fun w => w.get? q := by
  have hjoined : (p ++ "." ++ q).toList = p.toList ++ '.' :: q.toList := by simp
  rw [get?, hjoined, Path.ofText_append, follow?_append]
  rfl

/-- **The value at the end of a written path.** It is found where the names of the path lead, and
nothing is found where they lead nowhere. Two paths with a dot between them are followed one after
the other. The position of an item is computed within 64 bits, in arrays whose lengths are.

**Proof sketch.** The steps of a path are those that its names write, by definition, and those of
two paths with a dot between them are the steps of both. -/
theorem get?_iff_walk (v : Value) :
    (∀ path w, v.get? path = some w ↔ Walk v (Path.names path) w)
    ∧ (∀ p q : String, v.get? (p ++ "." ++ q) = (v.get? p).bind fun w => w.get? q)
    ∧ ∀ (items : List Value) (i : Int),
      item? items i = (if position items.length i < 0 then none
        else items[(position items.length i).toNat]?)
      ∧ (fitsSigned items.length = true → fitsSigned i = true →
        fitsSigned (position items.length i) = true) := by
  refine ⟨fun path w => follow?_map_ofText_eq_some_iff, get?_append_dot v, fun items i => ?_⟩
  exact ⟨item?_eq items i, fitsSigned_position⟩

/-- Names with signs and needless zeros are keys of an object and lead to no item of an array, the
least whole number of 64 bits is an index in front of every item, and dots may stand anywhere. -/
theorem get?_iff_walk_of_signs_and_zeros :
    let last : Value := .obj [("01", .str "a"), ("+1", .str "b"), ("-0", .str "c"), ("404", .null)]
    let items : List Value := [.bool true, last]
    let v : Value := .obj [("list", .arr items)]
    Walk v (Path.names "list.-1.01") (.str "a") ∧ Walk v (Path.names ".list.1..404") .null
      ∧ v.get? "list.-1" = some last ∧ last.get? "-0" = some (.str "c")
      ∧ v.get? ("list.-1" ++ "." ++ "-0") = some (.str "c")
      ∧ (∀ w, ¬ Walk v (Path.names "list.-0") w) ∧ (∀ w, ¬ Walk v (Path.names "list.01") w)
      ∧ (∀ w, ¬ Walk v (Path.names "list.-9223372036854775808") w)
      ∧ fitsSigned items.length = true ∧ fitsSigned (-9223372036854775808) = true
      ∧ fitsSigned (position items.length (-9223372036854775808)) = true := by
  intro last items v
  obtain ⟨hwalk, hjoined, hposition⟩ := get?_iff_walk v
  have hnowhere : ∀ path, v.get? path = none → ∀ w, ¬ Walk v (Path.names path) w := by
    intro path hnone w h
    rw [(hwalk path w).2 h] at hnone
    cases hnone
  have hlast : v.get? "list.-1" = some last := by decide +kernel
  have hzero : last.get? "-0" = some (.str "c") := by decide +kernel
  refine ⟨(hwalk _ _).1 (by decide +kernel), (hwalk _ _).1 (by decide +kernel), hlast, hzero, ?_,
    hnowhere _ (by decide +kernel), hnowhere _ (by decide +kernel),
    hnowhere _ (by decide +kernel), by decide, by decide, ?_⟩
  · rw [hjoined, hlast]
    exact hzero
  · exact (hposition items _).2 (by decide) (by decide)

end Value

end Stencil
