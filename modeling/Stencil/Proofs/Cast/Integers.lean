import Stencil.Proofs.Cast.Repeated
import Stencil.Proofs.Numeric.Grammar
import Stencil.Proofs.Path.Walk
import Stencil.Proofs.Text.Trim
import Stencil.Proofs.Value.Texts

/-!
# Casts to whole numbers

A text is cast to the whole number at its start, its longest run of digits with a sign or without.
Within 64 bits this number is taken exactly, whatever zeros it begins with and whatever follows.
Beyond 64 bits it becomes the nearest double, which is never a whole number again, since it is far
beyond `2 ^ 53`; and when there is no such double, the text is not cast.

## Main definitions

* `Stencil.Number.StartsWhole` — the number that a text starts with.

## Main results

* `Stencil.Number.ofBinary64_of_rounded` — the number for a whole number beyond 64 bits.
* `Stencil.Number.startsWhole_wholeStart?` — the number that is found is the one that a text starts
  with.
* `Stencil.Value.cast_int_decimal` — a decimal text among other text is cast to its number.
* `Stencil.Number.wholeStart?_exact` — all of it.
-/

set_option autoImplicit false

namespace Stencil

open Binary64 (Rounded)
open Decimal (NoDigit WritesWhole)
open Text (Blank LongestStart)

variable {n : Int} {s p : List Char}

/-- The whole numbers of 64 bits. -/
theorem fitsSigned_iff : fitsSigned n = true ↔ -2 ^ 63 ≤ n ∧ n < 2 ^ 63 := by
  rw [fitsSigned, Bool.and_eq_true, decide_eq_true_eq, decide_eq_true_eq]
  omega

/-! ## Beyond 64 bits -/

namespace Binary64

/-- A double that a whole number beyond 64 bits is rounded to is beyond `2 ^ 53`. -/
theorem maxSafe_lt_of_rounded {x : Binary64} {negative : Bool} (hn : 2 ^ 63 ≤ n.natAbs)
    (h : Rounded negative n.natAbs (.finite x)) : Number.maxSafe < x.wholeMagnitude := by
  have hbeyond : (2 : ℚ) ^ (63 : ℤ) ≤ n.natAbs := by exact_mod_cast hn
  have hmagnitude : (2 : ℚ) ^ (63 : ℤ) ≤ x.magnitude :=
    (rounded_finite_iff.1 h).2.two_zpow_le (by norm_num) hbeyond
  have hfloor : 2 ^ 63 ≤ x.wholeMagnitude := by
    rw [wholeMagnitude_eq_floor]
    refine Nat.le_floor ?_
    exact_mod_cast hmagnitude
  have hsafe : Number.maxSafe < 2 ^ 63 := by decide
  omega

end Binary64

namespace Number

open Binary64

/-- A double that a whole number beyond 64 bits is rounded to stays a double. -/
theorem ofBinary64_of_rounded {x : Binary64} {negative : Bool} (hn : n < -2 ^ 63 ∨ 2 ^ 63 ≤ n)
    (h : Rounded negative n.natAbs (.finite x)) : ofBinary64 x = .float x := by
  have hbeyond : maxSafe < x.wholeMagnitude := maxSafe_lt_of_rounded (by omega) h
  rw [ofBinary64]
  exact if_neg fun hsafe => absurd hsafe.2 (by omega)

/-! ## The number at the start of a text -/

/-- The number that a text starts with, if any. The longest whole number at its start is taken
exactly within 64 bits, and beyond as the double that it is rounded to; one that is rounded to
infinity is none. -/
inductive StartsWhole (s : List Char) : Option Number → Prop where
  | absent (h : ∀ p n, p <+: s → ¬ WritesWhole p n) : StartsWhole s none
  | whole {p : List Char} {n : Int} (h : LongestStart WritesWhole s p n) (hlow : -2 ^ 63 ≤ n)
      (hhigh : n < 2 ^ 63) : StartsWhole s (some (.int n))
  | nearest {p : List Char} {n : Int} {x : Binary64} (h : LongestStart WritesWhole s p n)
      (hbeyond : n < -2 ^ 63 ∨ 2 ^ 63 ≤ n)
      (hrounded : Rounded (decide (n < 0)) n.natAbs (.finite x)) : StartsWhole s (some (.float x))
  | infinite {p : List Char} {n : Int} (h : LongestStart WritesWhole s p n)
      (hbeyond : n < -2 ^ 63 ∨ 2 ^ 63 ≤ n)
      (hrounded : Rounded (decide (n < 0)) n.natAbs (.infinite (decide (n < 0)))) :
      StartsWhole s none

/-- The number that a text starts with is the one for the longest whole number at its start. -/
theorem wholeStart?_of_longestStart (h : LongestStart WritesWhole s p n) :
    wholeStart? s = if fitsSigned n then some (.int n) else ofExtended? (ofInt n) := by
  obtain ⟨rest, rfl⟩ := h.start
  rw [wholeStart?, Decimal.scans_scanWhole?.eq_some_iff.2 h, Option.bind_some]

/-- Beyond 64 bits, a text starts with the double that its number is rounded to, or with none. -/
theorem startsWhole_of_beyond (h : LongestStart WritesWhole s p n)
    (hn : n < -2 ^ 63 ∨ 2 ^ 63 ≤ n) : StartsWhole s (ofExtended? (ofInt n)) := by
  cases hofInt : ofInt n with
  | finite x =>
    have hrounded := ofInt_eq_iff.1 hofInt
    rw [ofExtended?, ofBinary64_of_rounded hn hrounded]
    exact .nearest h hn hrounded
  | infinite negative =>
    have hrounded := ofInt_eq_iff.1 hofInt
    have hsign : negative = decide (n < 0) := by
      cases hrounded
      rfl
    rw [hsign] at hrounded
    exact .infinite h hn hrounded
  | nan => cases ofInt_eq_iff.1 hofInt

/-- The number that is found at the start of a text is the one that the text starts with. -/
theorem startsWhole_wholeStart? (s : List Char) : StartsWhole s (wholeStart? s) := by
  cases hscan : Decimal.scanWhole? s with
  | none =>
    rw [wholeStart?, hscan]
    exact .absent (Decimal.scans_scanWhole?.eq_none_iff.1 hscan)
  | some found =>
    have hfst : (Decimal.scanWhole? s).map Prod.fst = some found.1 := by rw [hscan, Option.map_some]
    obtain ⟨p, hp⟩ := Decimal.scans_scanWhole?.map_fst_eq_some_iff.1 hfst
    rw [wholeStart?_of_longestStart hp]
    by_cases hfits : fitsSigned found.1 = true
    · obtain ⟨hlow, hhigh⟩ := fitsSigned_iff.1 hfits
      rw [if_pos hfits]
      exact .whole hp hlow hhigh
    · rw [if_neg hfits]
      rw [fitsSigned_iff] at hfits
      exact startsWhole_of_beyond hp (by omega)

/-- The number that a text starts with is found. -/
theorem StartsWhole.wholeStart?_eq {o : Option Number} (h : StartsWhole s o) :
    wholeStart? s = o := by
  have hbeyond : ∀ {n : Int}, n < -2 ^ 63 ∨ 2 ^ 63 ≤ n → ¬ fitsSigned n = true := by
    intro n hn
    rw [fitsSigned_iff]
    omega
  cases h with
  | absent h => rw [wholeStart?, Decimal.scans_scanWhole?.eq_none_iff.2 h, Option.bind_none]
  | whole h hlow hhigh =>
    rw [wholeStart?_of_longestStart h, if_pos (fitsSigned_iff.2 ⟨hlow, hhigh⟩)]
  | nearest h hn hrounded =>
    rw [wholeStart?_of_longestStart h, if_neg (hbeyond hn), ofInt_eq_iff.2 hrounded, ofExtended?,
      ofBinary64_of_rounded hn hrounded]
  | infinite h hn hrounded =>
    rw [wholeStart?_of_longestStart h, if_neg (hbeyond hn), ofInt_eq_iff.2 hrounded, ofExtended?]

end Number

/-! ## Decimal texts -/

namespace Decimal

/-- A digit is no blank. -/
theorem isBlank_of_isDigit {c : Char} (h : c.isDigit = true) : Text.isBlank c = false := by
  simp only [Char.isDigit, Bool.and_eq_true, decide_eq_true_eq, ge_iff_le, UInt32.le_iff_toNat_le]
    at h
  have hlow : 48 ≤ c.toNat := h.1
  have hhigh : c.toNat ≤ 57 := h.2
  simp only [Text.isBlank, Bool.or_eq_false_iff, Bool.and_eq_false_iff, beq_eq_false_iff_ne,
    decide_eq_false_iff_not]
  omega

/-- A whole number is written without blanks. -/
theorem WritesWhole.isBlank_eq_false (h : WritesWhole p n) :
    p ≠ [] ∧ ∀ c ∈ p, Text.isBlank c = false := by
  obtain ⟨hsign, hds, hne⟩ := h
  refine ⟨by simp [hne], fun c hc => ?_⟩
  rcases List.mem_append.1 hc with hc | hc
  · cases hsign with
    | none => cases hc
    | plus | minus =>
      obtain rfl := List.mem_singleton.1 hc
      rfl
  · exact isBlank_of_isDigit (hds c hc)

/-- The decimal text of a whole number writes it. -/
theorem writesWhole_toString (n : Int) : WritesWhole (toString n).toList n := by
  rw [toList_toString]
  obtain ⟨p, hp, hwrites⟩ := scans_scanWhole?.sound _ _ _ (scanWhole?_wholeText n)
  rw [List.append_nil] at hp
  rwa [hp]

end Decimal

namespace Value

/-- A decimal text is cast to its number, with blanks around it and anything but a digit behind
it. -/
theorem cast_int_decimal (hlow : -2 ^ 63 ≤ n) (hhigh : n < 2 ^ 63) {front suffix back : List Char}
    (hfront : Blank front) (hsuffix : NoDigit suffix) (hback : Blank back) (mode : Mode) :
    cast mode .int (.str (String.ofList (front ++ ((toString n).toList ++ suffix ++ back))))
      = .num (.int n) := by
  have hwrites := Decimal.writesWhole_toString n
  obtain ⟨hne, hblank⟩ := hwrites.isBlank_eq_false
  obtain ⟨kept, hkept, htrim⟩ := Text.exists_trim_append hne hblank suffix
  have hscan := hwrites.scanWhole?_append (hsuffix.of_start hkept)
  have hstart : Number.wholeStart? ((toString n).toList ++ kept) = some (.int n) := by
    rw [Number.wholeStart?, hscan, Option.bind_some]
    exact if_pos (fitsSigned_iff.2 ⟨hlow, hhigh⟩)
  rw [cast_int, toInt?, String.toList_ofList, Text.trim_append hfront hback, htrim, hstart]
  rfl

end Value

namespace Number

/-- **The whole number at the start of a text is exact within 64 bits, and never wrong beyond.** The
longest run of digits at the start of a text, with a sign or without, writes a whole number. Within
64 bits the text starts with exactly this whole number, whatever zeros are in front and whatever
follows. Beyond 64 bits it starts with the double that the number is rounded to, which is no whole
number, or with none when it is rounded to infinity; and with none when there are no digits. So a
decimal text is cast to its number, with blanks around it and anything but a digit behind it, and
among other text the number is this decimal text again.

**Proof sketch.** The scan takes the longest whole number. Within 64 bits it is taken as it is, and
beyond them the double nearest to it is beyond `2 ^ 53`, so that it stays a double. -/
theorem wholeStart?_exact :
    (∀ (s : List Char) (o : Option Number), wholeStart? s = o ↔ StartsWhole s o)
    ∧ ∀ n : Int, -2 ^ 63 ≤ n → n < 2 ^ 63 → ∀ front suffix back : List Char,
      Blank front → NoDigit suffix → Blank back → ∀ mode,
      Value.cast mode .int (.str (String.ofList (front ++ ((toString n).toList ++ suffix ++ back))))
          = .num (.int n)
        ∧ (Value.num (.int n)).display = (toString n).toList := by
  constructor
  · intro s o
    exact ⟨fun h => h ▸ startsWhole_wholeStart? s, StartsWhole.wholeStart?_eq⟩
  · intro n hlow hhigh front suffix back hfront hsuffix hback mode
    refine ⟨Value.cast_int_decimal hlow hhigh hfront hsuffix hback mode, ?_⟩
    rw [Value.display_num, Decimal.toList_toString]
    rfl

/-- The least whole number of 64 bits behind zeros and in front of letters, the next one below it,
which is no whole number of 64 bits, and blanks and a point around a negative number. -/
theorem wholeStart?_exact_at_least_number :
    StartsWhole "-009223372036854775808px".toList (some (.int (-9223372036854775808)))
    ∧ (∃ x, StartsWhole "-9223372036854775809".toList (some (.float x)) ∧ x.exponent = 11)
    ∧ StartsWhole "+-1".toList none
    ∧ Blank ['\t', '\u00a0'] ∧ NoDigit ".5".toList ∧ Blank [' ']
    ∧ Value.cast .embedded .int (.str (String.ofList
        (['\t', '\u00a0'] ++ ((toString (-7 : Int)).toList ++ ".5".toList ++ [' ']))))
      = .num (.int (-7)) := by
  obtain ⟨hstarts, hcast⟩ := wholeStart?_exact
  have hfront : Blank ['\t', '\u00a0'] := List.all_eq_true.1 (by decide)
  have hsuffix : NoDigit ".5".toList := by
    rintro c ⟨⟩
    rfl
  have hback : Blank [' '] := Text.blank_singleton rfl
  refine ⟨(hstarts _ _).1 (by decide +kernel), ?_, (hstarts _ _).1 (by decide +kernel), hfront,
    hsuffix, hback, ?_⟩
  · refine ⟨⟨true, 4503599627370496, 11, by decide⟩, (hstarts _ _).1 (by decide +kernel), rfl⟩
  · exact (hcast (-7) (by decide) (by decide) _ _ _ hfront hsuffix hback .embedded).1

end Number

end Stencil
