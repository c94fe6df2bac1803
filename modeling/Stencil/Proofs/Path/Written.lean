import Mathlib.Data.List.TakeWhile
import Stencil.Path

/-!
# Written paths

The decimal text of a whole number is read back as that number, and texts with dots between them are
read back as the steps that they write, as far as none is empty or has a dot.

## Main results

* `Stencil.Decimal.scanWhole?_wholeText` — a whole number is read back from its text.
* `Stencil.Segment.index?_wholeText` — so is the index of an item, within 64 bits.
* `Stencil.Segment.ofText_eq_index_iff` — which texts write the index of an item.
* `Stencil.Path.ofText_intercalate` — steps are read back from a written path.
-/

set_option autoImplicit false

namespace Stencil

/-! ## Whole numbers -/

namespace Decimal

/-- The digits of a number begin with no sign. -/
theorem takeSign_toDigits (n : Nat) :
    takeSign (Nat.toDigits 10 n) = (false, Nat.toDigits 10 n) := by
  have hdigit : ∀ c ∈ Nat.toDigits 10 n, c.isDigit = true := fun c hc =>
    Nat.isDigit_of_mem_toDigits (by decide) (by decide) hc
  unfold takeSign
  split
  · next h => exact absurd (hdigit '-' (by simp [h])) (by decide)
  · next h => exact absurd (hdigit '+' (by simp [h])) (by decide)
  · rfl

/-- The digits of a number are taken to the last one. -/
theorem takeDigits_toDigits (n : Nat) :
    takeDigits (Nat.toDigits 10 n) = (Nat.toDigits 10 n, []) := by
  have hdigit : ∀ c ∈ Nat.toDigits 10 n, c.isDigit = true := fun c hc =>
    Nat.isDigit_of_mem_toDigits (by decide) (by decide) hc
  rw [takeDigits, List.takeWhile_eq_self_iff.2 hdigit, List.dropWhile_eq_nil_iff.2 hdigit]

/-- A whole number is read back from its decimal text. -/
theorem scanWhole?_wholeText (n : Int) : scanWhole? (wholeText n) = some (n, []) := by
  have hsign : takeSign (wholeText n) = (decide (n < 0), Nat.toDigits 10 n.natAbs) := by
    unfold wholeText
    by_cases hn : n < 0
    · rw [if_pos hn, decide_eq_true hn, takeSign]
    · rw [if_neg hn, decide_eq_false hn, takeSign_toDigits]
  have hdigits : ofDigits (Nat.toDigits 10 n.natAbs) = n.natAbs := Nat.ofDigitChars_ten_toDigits
  have hne : Nat.toDigits 10 n.natAbs ≠ [] := Nat.toDigits_ne_nil
  rw [scanWhole?, hsign]
  dsimp only
  rw [takeDigits_toDigits]
  split
  · next h => exact absurd (Prod.mk.inj h).1 hne
  · next ds rest _ h =>
    obtain ⟨rfl, rfl⟩ := Prod.mk.inj h
    rw [hdigits]
    by_cases hn : n < 0
    · rw [if_pos (decide_eq_true hn)]
      congr 2
      omega
    · rw [if_neg (by simpa using hn)]
      congr 2
      omega

end Decimal

/-! ## Steps -/

namespace Segment

/-- The index of an item is read back from its decimal text. -/
theorem index?_wholeText {n : Int} (h : fitsSigned n = true) :
    index? (Decimal.wholeText n) = some n := by
  simp [index?, Decimal.scanWhole?_wholeText, h]

/-- The texts that write an index are the decimal texts of the whole numbers of 64 bits. -/
theorem index?_eq_some_iff {s : List Char} {i : Int} :
    index? s = some i ↔ fitsSigned i = true ∧ s = Decimal.wholeText i := by
  constructor
  · intro h
    refine ⟨?_, (wholeText_of_index? h).symm⟩
    unfold index? at h
    split at h
    · next n _ =>
      split at h
      · next hfits =>
        cases h
        exact (Bool.and_eq_true_iff.1 hfits).1
      · cases h
    · cases h
  · rintro ⟨hfits, rfl⟩
    exact index?_wholeText hfits

/-- The steps to an item are written by these texts; any other text writes a key. -/
theorem ofText_eq_index_iff {s : List Char} {i : Int} :
    ofText s = .index i ↔ fitsSigned i = true ∧ s = Decimal.wholeText i := by
  rw [← index?_eq_some_iff, ofText]
  cases index? s <;> simp

/-- The digits of a position write the step to the item there. -/
theorem ofText_toDigits {i : Nat} (h : fitsSigned i = true) :
    ofText (Nat.toDigits 10 i) = .index i := by
  have htext : Nat.toDigits 10 i = Decimal.wholeText i := by
    rw [Decimal.wholeText, if_neg (by omega), Int.natAbs_natCast]
  exact ofText_eq_index_iff.2 ⟨h, htext⟩

end Segment

/-- A position that is not negative counts from the front. -/
theorem Value.item?_natCast (items : List Value) (i : Nat) : item? items i = items[i]? := by
  have hpos : ¬ (i : Int) < 0 := by omega
  simp only [item?, if_neg hpos, Int.toNat_natCast]

namespace Path

variable {names : List (List Char)}

/-- Texts with dots between them are the texts between the dots, as far as none is empty or has a
dot. -/
theorem filter_splitOn_intercalate (h : ∀ name ∈ names, name ≠ [] ∧ '.' ∉ name) :
    ((List.intercalate ['.'] names).splitOn '.').filter (· ≠ []) = names := by
  by_cases hnames : names = []
  · rw [hnames]
    rfl
  · rw [List.splitOn_intercalate '.' (fun name hname => (h name hname).2) hnames]
    exact List.filter_eq_self.2 fun name hname => decide_eq_true (h name hname).1

/-- The steps of a path are those that the texts between its dots write. -/
theorem ofText_intercalate (h : ∀ name ∈ names, name ≠ [] ∧ '.' ∉ name) :
    Path.ofText (List.intercalate ['.'] names) = names.map Segment.ofText := by
  rw [Path.ofText, filter_splitOn_intercalate h]

end Path

end Stencil
