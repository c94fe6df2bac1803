import Stencil.Text.Basic

/-!
# Slices of a text by bytes

A place in a text can be given as a number of bytes. Only a place between two characters, or at
either end, cuts the text; one inside a character cuts nothing.

## Main definitions

* `Stencil.Text.cutAt?` — the text in front of a place and the text behind it.
* `Stencil.Text.behind?` — the text behind a place.
* `Stencil.Text.slice?` — the text between two places.

## Main results

* `Stencil.Text.cutAt?_eq_some_iff`, `Stencil.Text.slice?_eq_some_iff` — the cuts are those between
  characters.
-/

set_option autoImplicit false

namespace Stencil.Text

variable {s front rest part : List Char} {start stop place : Nat}

/-- The text in front of the place behind so many bytes, and the text behind it. There is neither
when the place lies inside a character or outside the text. -/
def cutAt? : Nat → List Char → Option (List Char × List Char)
  | 0, s => some ([], s)
  | _ + 1, [] => none
  | n + 1, c :: r =>
    if c.utf8Size ≤ n + 1 then
      (cutAt? (n + 1 - c.utf8Size) r).map fun (front, rest) => (c :: front, rest)
    else none

/-- Behind the bytes of a beginning, the text is cut behind that beginning. -/
theorem cutAt?_byteSize (front rest : List Char) :
    cutAt? (byteSize front) (front ++ rest) = some (front, rest) := by
  induction front with
  | nil => rw [byteSize, cutAt?, List.nil_append]
  | cons c r ih =>
    obtain ⟨n, hn⟩ : ∃ n, byteSize (c :: r) = n + 1 :=
      Nat.exists_eq_succ_of_ne_zero (by have := c.utf8Size_pos; rw [byteSize]; omega)
    have hle : c.utf8Size ≤ n + 1 := by rw [← hn, byteSize]; omega
    have hrest : n + 1 - c.utf8Size = byteSize r := by rw [← hn, byteSize]; omega
    rw [hn, List.cons_append, cutAt?, if_pos hle, hrest, ih]
    rfl

/-- A text is cut at a place exactly when its beginning has so many bytes. -/
theorem cutAt?_eq_some_iff :
    cutAt? place s = some (front, rest) ↔ s = front ++ rest ∧ byteSize front = place := by
  constructor
  · intro h
    induction s generalizing place front with
    | nil =>
      cases place with
      | zero => cases h; exact ⟨rfl, rfl⟩
      | succ n => cases h
    | cons c r ih =>
      cases place with
      | zero => cases h; exact ⟨rfl, rfl⟩
      | succ n =>
        rw [cutAt?, Option.ite_none_right_eq_some, Option.map_eq_some_iff] at h
        obtain ⟨hle, ⟨front', rest'⟩, hcut, heq⟩ := h
        cases heq
        obtain ⟨rfl, hsize⟩ := ih hcut
        exact ⟨rfl, by rw [byteSize]; omega⟩
  · rintro ⟨rfl, rfl⟩
    exact cutAt?_byteSize front rest

/-- The text behind a place. -/
def behind? (place : Nat) (s : List Char) : Option (List Char) := (cutAt? place s).map Prod.snd

/-- A text stands behind a place exactly when what is in front of it has so many bytes. -/
theorem behind?_eq_some_iff :
    behind? place s = some rest ↔ ∃ front, s = front ++ rest ∧ byteSize front = place := by
  rw [behind?, Option.map_eq_some_iff]
  constructor
  · rintro ⟨⟨front, _⟩, hcut, rfl⟩
    exact ⟨front, cutAt?_eq_some_iff.1 hcut⟩
  · rintro ⟨front, hfront⟩
    exact ⟨(front, rest), cutAt?_eq_some_iff.2 hfront, rfl⟩

/-- Behind the start there is the whole text. -/
theorem behind?_zero (s : List Char) : behind? 0 s = some s :=
  behind?_eq_some_iff.2 ⟨[], rfl, rfl⟩

/-- A place moves over the part of the text that stands behind it. -/
theorem behind?_add (part : List Char) (h : behind? place s = some (part ++ rest)) :
    behind? (place + byteSize part) s = some rest := by
  obtain ⟨front, rfl, rfl⟩ := behind?_eq_some_iff.1 h
  refine behind?_eq_some_iff.2 ⟨front ++ part, ?_, byteSize_append front part⟩
  rw [List.append_assoc]

/-- The text from one place to another. There is none when either place lies inside a character or
outside the text, or when the places are in the wrong order. -/
def slice? (start stop : Nat) (s : List Char) : Option (List Char) :=
  if start ≤ stop then do
    let (_, behind) ← cutAt? start s
    let (part, _) ← cutAt? (stop - start) behind
    return part
  else none

/-- A part of a text lies between two places exactly when the text in front of it has as many bytes
as the first place says, and the part has the bytes from there to the second one. -/
theorem slice?_eq_some_iff : slice? start stop s = some part ↔
    ∃ front rest, s = front ++ (part ++ rest) ∧ byteSize front = start
      ∧ start + byteSize part = stop := by
  constructor
  · intro h
    obtain ⟨hle, h⟩ := Option.ite_none_right_eq_some.1 h
    simp only [Option.bind_eq_bind, Option.bind_eq_some_iff] at h
    obtain ⟨⟨front, behind⟩, hfront, ⟨part', rest⟩, hpart, heq⟩ := h
    cases heq
    obtain ⟨rfl, hstart⟩ := cutAt?_eq_some_iff.1 hfront
    obtain ⟨rfl, hsize⟩ := cutAt?_eq_some_iff.1 hpart
    have hstop : start + byteSize part' = stop := by rw [hsize, Nat.add_sub_cancel' hle]
    exact ⟨front, rest, rfl, hstart, hstop⟩
  · rintro ⟨front, rest, rfl, rfl, rfl⟩
    rw [slice?, if_pos (Nat.le_add_right _ _), Nat.add_sub_cancel_left, cutAt?_byteSize]
    simp only [Option.bind_eq_bind, Option.bind_some, cutAt?_byteSize]
    rfl

/-- The text in front of a place is sliced out from the start. -/
theorem exists_slice?_of_behind? (h : behind? place s = some rest) :
    ∃ part, s = part ++ rest ∧ slice? 0 place s = some part := by
  obtain ⟨part, rfl, rfl⟩ := behind?_eq_some_iff.1 h
  exact ⟨part, rfl, slice?_eq_some_iff.2 ⟨[], rest, rfl, rfl, Nat.zero_add _⟩⟩

/-- A part of a text is sliced out at its own place. -/
theorem slice?_append (front part rest : List Char) :
    slice? (byteSize front) (byteSize (front ++ part)) (front ++ (part ++ rest)) = some part :=
  slice?_eq_some_iff.2 ⟨front, rest, rfl, rfl, (byteSize_append front part).symm⟩

end Stencil.Text
