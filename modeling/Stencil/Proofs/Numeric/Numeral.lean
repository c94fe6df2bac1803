import Stencil.Numeric.Number

/-!
# The characters of numerals

The text of a number is made of digits, the two signs, the point and the letter of the exponent.

## Main definitions

* `Stencil.Number.isNumeralChar` — the characters of the text of a number.

## Main results

* `Stencil.Number.isNumeralChar_of_mem_text`, `Stencil.Number.isNumeralChar_of_mem_plainText` — a
  number in JSON or among other text has no other characters.
-/

set_option autoImplicit false

namespace Stencil

/-- A digit, a sign, the point or the letter of an exponent. -/
def Number.isNumeralChar (c : Char) : Bool :=
  c.isDigit || c == '-' || c == '+' || c == '.' || c == 'e'

open Number

/-- A digit is a character of a numeral. -/
theorem Number.isNumeralChar_of_isDigit {c : Char} (h : c.isDigit = true) :
    isNumeralChar c = true := by
  simp [isNumeralChar, h]

/-- The decimal digits of a number are digits. -/
theorem isNumeralChar_of_mem_toDigits {n : Nat} {c : Char} (h : c ∈ Nat.toDigits 10 n) :
    isNumeralChar c = true :=
  isNumeralChar_of_isDigit (Nat.isDigit_of_mem_toDigits (by decide) (by decide) h)

/-- Dropping trailing zeros leaves digits. -/
theorem Scientific.isDigit_of_mem_ofScaled {n : Nat} {k : Int} {c : Char}
    (h : c ∈ (ofScaled n k).digits) : c.isDigit = true := by
  simp only [ofScaled] at h
  split at h
  · rw [List.mem_singleton.1 h]
    decide
  · rw [List.mem_reverse] at h
    have hmem := List.mem_reverse.1 ((List.dropWhile_sublist _).subset h)
    exact Nat.isDigit_of_mem_toDigits (by decide) (by decide) hmem

/-- The shortest digits of a double are digits. -/
theorem Binary64.isDigit_of_mem_shortest {x : Binary64} {c : Char} (h : c ∈ x.shortest.digits) :
    c.isDigit = true := by
  unfold shortest at h
  split at h
  · rw [List.mem_singleton.1 h]
    decide
  · split at h
    · next s hs =>
      obtain ⟨k, -, hk⟩ := List.exists_of_findSome?_eq_some hs
      obtain ⟨n, -, rfl⟩ := Option.map_eq_some_iff.1 hk
      exact Scientific.isDigit_of_mem_ofScaled h
    · exact Scientific.isDigit_of_mem_ofScaled h

namespace Layout

variable {layout : Layout} {s : Scientific}

/-- Digits laid out positionally stay digits, with a point, zeros and the tail of whole numbers. -/
theorem forall_mem_positional {p : Char → Prop} (hzero : p '0') (hpoint : p '.')
    (hdigits : ∀ c ∈ s.digits, p c) (htail : ∀ c ∈ layout.wholeTail, p c) :
    ∀ c ∈ layout.positional s, p c := by
  have hzeros : ∀ n, ∀ c ∈ zeros n, p c := fun n c hc => by
    rw [(List.mem_replicate.1 hc).2]
    exact hzero
  unfold positional
  dsimp only
  split
  · rw [List.forall_mem_cons, List.forall_mem_cons, List.forall_mem_append]
    exact ⟨hzero, hpoint, hzeros _, hdigits⟩
  · split
    · rw [List.forall_mem_append, List.forall_mem_append]
      exact ⟨⟨hdigits, hzeros _⟩, htail⟩
    · rw [List.forall_mem_append, List.forall_mem_cons]
      exact ⟨fun c hc => hdigits c (List.mem_of_mem_take hc), hpoint,
        fun c hc => hdigits c (List.mem_of_mem_drop hc)⟩

/-- Digits with a power of ten behind them have a point, the letter of the exponent and its sign. -/
theorem forall_mem_scientific (hdigits : ∀ c ∈ s.digits, isNumeralChar c = true)
    (hsign : ∀ c ∈ layout.exponentSign, isNumeralChar c = true) :
    ∀ c ∈ layout.scientific s, isNumeralChar c = true := by
  unfold scientific
  dsimp only
  rw [List.forall_mem_append, List.forall_mem_append, List.forall_mem_cons, List.forall_mem_append]
  refine ⟨⟨fun c hc => hdigits c (List.mem_of_mem_take hc), ?_⟩, by decide, ?_,
    fun c hc => isNumeralChar_of_mem_toDigits hc⟩
  · split
    · exact fun c hc => absurd hc List.not_mem_nil
    · rw [List.forall_mem_cons]
      exact ⟨by decide, fun c hc => hdigits c (List.mem_of_mem_drop hc)⟩
  · split
    · exact List.forall_mem_singleton.2 (by decide)
    · exact hsign

end Layout

/-- The sign of a double is one. -/
theorem Binary64.forall_mem_sign (x : Binary64) : ∀ c ∈ x.sign, isNumeralChar c = true := by
  unfold sign
  split
  · exact List.forall_mem_singleton.2 (by decide)
  · exact fun c hc => absurd hc List.not_mem_nil

/-- The text of a double has the characters of a numeral, as far as the layout has. -/
theorem Binary64.forall_mem_text {layout : Layout} (x : Binary64)
    (htail : ∀ c ∈ layout.wholeTail, isNumeralChar c = true)
    (hsign : ∀ c ∈ layout.exponentSign, isNumeralChar c = true) :
    ∀ c ∈ x.text layout, isNumeralChar c = true := by
  have hdigits : ∀ c ∈ x.shortest.digits, isNumeralChar c = true := fun c hc =>
    isNumeralChar_of_isDigit (isDigit_of_mem_shortest hc)
  rw [text, List.forall_mem_append]
  refine ⟨x.forall_mem_sign, ?_⟩
  unfold Layout.magnitude
  split
  · exact Layout.forall_mem_positional (by decide) (by decide) hdigits htail
  · exact Layout.forall_mem_scientific hdigits hsign

/-- A number in JSON has the characters of a numeral. -/
theorem Number.isNumeralChar_of_mem_text {n : Number} {c : Char} (h : c ∈ n.text .json) :
    isNumeralChar c = true := by
  cases n with
  | int n =>
    rw [text, Decimal.wholeText] at h
    split at h
    · rcases List.mem_cons.1 h with rfl | h
      · decide
      · exact isNumeralChar_of_mem_toDigits h
    · exact isNumeralChar_of_mem_toDigits h
  | float x =>
    have htail : ∀ c ∈ Layout.json.wholeTail, isNumeralChar c = true :=
      List.forall_mem_cons.2 ⟨by decide, List.forall_mem_singleton.2 (by decide)⟩
    have hsign : ∀ c ∈ Layout.json.exponentSign, isNumeralChar c = true :=
      List.forall_mem_singleton.2 (by decide)
    exact x.forall_mem_text htail hsign c h

/-- A number among other text has the characters of a numeral. -/
theorem Number.isNumeralChar_of_mem_plainText {n : Number} {c : Char} (h : c ∈ n.plainText) :
    isNumeralChar c = true := by
  cases n with
  | int n => exact isNumeralChar_of_mem_text (n := .int n) h
  | float x =>
    rw [plainText, Binary64.plainText] at h
    split at h
    · rcases List.mem_append.1 h with h | h
      · exact x.forall_mem_sign c h
      · exact isNumeralChar_of_mem_toDigits h
    · exact isNumeralChar_of_mem_text (n := .float x) h

end Stencil
