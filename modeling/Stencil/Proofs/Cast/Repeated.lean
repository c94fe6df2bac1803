import Stencil.Cast
import Stencil.Proofs.Numeric.Whole
import Stencil.Proofs.Value.Texts

/-!
# Casting again

The casts that convert values leave nothing for themselves to do: a value that has been cast to a
text, a whole number, a number or a boolean is kept by the same cast. A cast may change the sort of
a value, so that the second time another rule applies: a text has become a number, or a number has
lost its fraction. A whole number that is too large for 64 bits becomes a double, which is beyond
`2 ^ 53` and has no fraction to lose.

## Main results

* `Stencil.Value.toBool_toBool` — the texts of booleans at any depth.
* `Stencil.Value.toInt?_of_toInt?`, `Stencil.Value.toNumber?_of_toNumber?` — numbers.
* `Stencil.Value.cast_cast` — all casts that convert values.
-/

set_option autoImplicit false

namespace Stencil.Value

variable {mode : Mode} {tag : Tag} {v w : Value}

/-! ## Casts by their tags -/

theorem cast_str (h : v ≠ .null) : cast mode .str v = .str (String.ofList v.display) := by
  cases v with
  | null => exact absurd rfl h
  | bool | num | str | arr | obj => rfl

theorem cast_int (mode : Mode) (v : Value) : cast mode .int v = v.toInt?.getD v := by
  cases v <;> rfl

theorem cast_num (mode : Mode) (v : Value) : cast mode .num v = v.toNumber?.getD v := by
  cases v <;> rfl

theorem cast_bool (mode : Mode) (v : Value) : cast mode .bool v = v.toBool := by
  cases v with
  | null => simp only [cast_null, toBool]
  | bool | num | str | arr | obj => rfl

/-! ## Numbers -/

/-- What a value has been converted to is a number that the conversion keeps: a whole number, or a
double that has no fraction. -/
theorem toInt?_of_toInt? (h : v.toInt? = some w) : w.toInt? = some w := by
  have hnumber : ∀ n : Number, (∀ x, n = .float x → Number.truncate x = .float x) →
      (num n).toInt? = some (num n) := by
    intro n hn
    cases n with
    | int n => rfl
    | float x => rw [toInt?, hn x rfl]
  cases v with
  | num n =>
    cases n with
    | int n =>
      cases h
      rfl
    | float x =>
      cases h
      refine hnumber _ fun y hy => ?_
      rw [Number.truncate] at hy
      split at hy
      · cases hy
      · next hbeyond =>
        cases hy
        exact if_neg hbeyond
  | str s =>
    obtain ⟨n, hn, rfl⟩ := Option.map_eq_some_iff.1 h
    obtain ⟨⟨k, rest⟩, -, hk⟩ := Option.bind_eq_some_iff.1 hn
    refine hnumber n fun x hx => ?_
    dsimp only at hk
    split at hk
    · cases hk
      cases hx
    · rw [hx] at hk
      exact Number.truncate_of_ofExtended?_ofInt hk
  | null | bool | arr | obj => cases h

/-- What a value has been converted to is a number, and numbers are kept. -/
theorem toNumber?_of_toNumber? (h : v.toNumber? = some w) : w.toNumber? = some w := by
  cases v with
  | num n =>
    cases h
    rfl
  | str s =>
    obtain ⟨n, -, rfl⟩ := Option.map_eq_some_iff.1 h
    rfl
  | null | bool | arr | obj => cases h

/-- A conversion that keeps what it has given changes nothing the second time, also where there was
nothing to convert. -/
theorem getD_getD {convert? : Value → Option Value}
    (hkeeps : ∀ v w, convert? v = some w → convert? w = some w) (v : Value) :
    (convert? ((convert? v).getD v)).getD ((convert? v).getD v) = (convert? v).getD v := by
  cases h : convert? v with
  | none => rw [Option.getD_none, h, Option.getD_none]
  | some w => rw [Option.getD_some, hkeeps v w h, Option.getD_some]

/-- A text that is not converted stays as it is, blanks around it included. -/
theorem cast_text (mode : Mode) (s : String) (htag : tag = .int ∨ tag = .num) :
    cast mode tag (.str s) = .str s ∨ ∃ n, cast mode tag (.str s) = .num n := by
  rcases htag with rfl | rfl
  · rw [cast_int, toInt?]
    cases Number.wholeStart? (Text.trim s.toList) with
    | none => exact Or.inl rfl
    | some n => exact Or.inr ⟨n, rfl⟩
  · rw [cast_num, toNumber?]
    cases Number.start? (Text.trim s.toList) with
    | none => exact Or.inl rfl
    | some n => exact Or.inr ⟨n, rfl⟩

/-! ## Booleans -/

/-- A text that names a boolean has become one; any other one still names none. -/
theorem toBool_boolOfText (s : String) : (boolOfText s).toBool = boolOfText s := by
  rw [boolOfText]
  split
  · simp only [toBool]
  · next htrue =>
    split
    · simp only [toBool]
    · next hfalse => rw [toBool, boolOfText, if_neg htrue, if_neg hfalse]

mutual

/-- After the texts of booleans have become booleans, none is left at any depth. -/
theorem toBool_toBool : (v : Value) → v.toBool.toBool = v.toBool
  | .str s => by
    rw [toBool]
    exact toBool_boolOfText s
  | .arr items => by rw [toBool, toBool, toBoolItems_toBoolItems items]
  | .obj members => by rw [toBool, toBool, toBoolMembers_toBoolMembers members]
  | .null | .bool _ | .num _ => by simp only [toBool]

theorem toBoolItems_toBoolItems : (items : List Value) →
    toBoolItems (toBoolItems items) = toBoolItems items
  | [] => rfl
  | v :: rest => by rw [toBoolItems, toBoolItems, toBool_toBool v, toBoolItems_toBoolItems rest]

theorem toBoolMembers_toBoolMembers : (members : List (String × Value)) →
    toBoolMembers (toBoolMembers members) = toBoolMembers members
  | [] => rfl
  | (k, v) :: rest => by
    rw [toBoolMembers, toBoolMembers, toBool_toBool v, toBoolMembers_toBoolMembers rest]

end

/-! ## All casts -/

/-- **Casting again.** A value that has been cast by `str`, `int`, `num` or `bool` is kept by the
same cast. A text that `int` or `num` cannot convert comes back as it is, and becomes a number
otherwise. The number that `int` makes of a double is the one for the double without its fraction,
which is a double.

**Proof sketch.** A text is its own text among other text. A text has become a number, and numbers
are kept by `num`; those that come of whole numbers, and doubles without their fraction, are kept by
`int`. The texts that name a boolean are gone, and all other values are as they were. -/
theorem cast_cast (htag : tag ∈ [Tag.str, .int, .num, .bool]) (mode : Mode) (v : Value) :
    cast mode tag (cast mode tag v) = cast mode tag v
      ∧ (∀ s, v = .str s → tag = .int ∨ tag = .num →
        cast mode tag v = v ∨ ∃ n, cast mode tag v = .num n)
      ∧ ∀ x, v = .num (.float x) → tag = .int →
        (Number.ofExtended? (Binary64.ofInt x.truncate)).map .num = some (cast mode tag v) := by
  refine ⟨?_, ?_, ?_⟩
  · simp only [List.mem_cons, List.not_mem_nil, or_false] at htag
    rcases htag with rfl | rfl | rfl | rfl
    · by_cases hnull : v = .null
      · rw [hnull, cast_null, cast_null]
      · rw [cast_str hnull, cast_str (by simp), display_str, String.toList_ofList]
    · rw [cast_int, cast_int]
      exact getD_getD (fun _ _ => toInt?_of_toInt?) v
    · rw [cast_num, cast_num]
      exact getD_getD (fun _ _ => toNumber?_of_toNumber?) v
    · rw [cast_bool, cast_bool, toBool_toBool]
  · rintro s rfl hnumeric
    exact cast_text mode s hnumeric
  · rintro x rfl rfl
    rw [Number.ofExtended?_ofInt_truncate]
    rfl

/-- A text with a number beyond 64 bits becomes a double, a text without a number stays as it is
with its blanks, and a double with a fraction becomes a whole number. -/
theorem cast_cast_of_numbers_beyond_range :
    let tags := [Tag.str, .int, .num, .bool]
    let beyond : Value := .num (.float ⟨false, 6103515625000000, 14, by decide⟩)
    let half : Binary64 := ⟨true, 6755399441055744, -52, by decide⟩
    Tag.int ∈ tags
      ∧ cast .whole .int (.str " 99999999999999999999px") = beyond
      ∧ cast .whole .int beyond = beyond
      ∧ cast .whole .int (.str " px ") = .str " px "
      ∧ cast .whole .int (.num (.float half)) = .num (.int (-1))
      ∧ (Number.ofExtended? (Binary64.ofInt half.truncate)).map num = some (.num (.int (-1))) := by
  intro tags beyond half
  have htag : Tag.int ∈ tags := by decide
  have hbeyond : cast .whole .int (.str " 99999999999999999999px") = beyond := by decide +kernel
  have htwice := (cast_cast htag .whole (.str " 99999999999999999999px")).1
  have htext := (cast_cast htag .whole (.str " px ")).2.1 " px " rfl (Or.inl rfl)
  have hhalf := (cast_cast htag .whole (.num (.float half))).2.2 half rfl rfl
  have hone : cast .whole .int (.num (.float half)) = .num (.int (-1)) := by decide +kernel
  refine ⟨htag, hbeyond, ?_, ?_, hone, ?_⟩
  · rwa [hbeyond] at htwice
  · have hkind : (cast .whole .int (.str " px ")).kind = .string := by decide +kernel
    refine htext.resolve_right ?_
    rintro ⟨n, hn⟩
    rw [hn] at hkind
    cases hkind
  · rwa [hone] at hhalf

end Stencil.Value
