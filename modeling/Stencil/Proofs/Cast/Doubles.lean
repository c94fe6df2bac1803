import Stencil.Numeric.Number
import Stencil.Proofs.Numeric.Grammar
import Stencil.Proofs.Numeric.Reading
import Stencil.Proofs.Text.Slice

/-!
# Doubles at the start of a text

A text starts with the double nearest to its longest start that writes a numeral. A reader that
keeps its place as a number of bytes steps over the sign, the digits, the point and the exponent,
and would fail where a place lies inside a character. It takes that longest start, and trimming the
points at its end leaves a text that writes the same numeral.

## Main definitions

* `Stencil.Numeral.magnitude` — the magnitude that the parts of a numeral write.
* `Stencil.Numeral.numeralStop?`, `Stencil.Numeral.readStart?` — the reader by bytes.

## Main results

* `Stencil.Numeral.Writes.trimPoints` — without the points at its end, a text writes the same.
* `Stencil.Numeral.readStart?_eq` — the reader by bytes never fails, and finds what the scan finds.
* `Stencil.Number.floatStart?_longest` — the double at the start of a text.
-/

set_option autoImplicit false

namespace Stencil

open Binary64 (Rounded)
open Decimal
open Text (LongestStart behind? behind?_add)

variable {s p w f ahead ds : List Char} {place start : Nat}

/-! ## Magnitudes -/

/-- The magnitude of a numeral: the number in front of the point and the fraction behind it, times
the power of ten that the exponent says. -/
def Numeral.magnitude (n : Numeral) : ℚ :=
  (ofDigits n.whole + ofDigits n.fraction / 10 ^ n.fraction.length) * 10 ^ n.exponent

/-- Digits in front of others count by a power of ten. -/
theorem Decimal.ofDigits_append (w f : List Char) :
    ofDigits (w ++ f) = 10 ^ f.length * ofDigits w + ofDigits f := by
  rw [ofDigits, Nat.ofDigitChars_append, Nat.ofDigitChars_eq_ofDigitChars_zero]
  rfl

/-- The decimal that the parts of a numeral make has the magnitude that they write. -/
theorem Numeral.magnitude_decimal (n : Numeral) : n.decimal.magnitude = n.magnitude := by
  have hten : (10 : ℚ) ≠ 0 := by norm_num
  rw [Decimal.magnitude, decimal, magnitude, ofDigits_append, zpow_sub₀ hten, zpow_natCast]
  push_cast
  field_simp

/-! ## Digits and points at the end -/

/-- Digits are one byte each. -/
theorem Decimal.Digits.byteSize_eq (h : Digits ds) : Text.byteSize ds = ds.length := by
  induction ds with
  | nil => rfl
  | cons d ds ih =>
    have hd : d.utf8Size = 1 := by
      have hdigit : d.isDigit = true := h d List.mem_cons_self
      simp only [Char.isDigit, Bool.and_eq_true, decide_eq_true_eq, ge_iff_le] at hdigit
      rw [Char.utf8Size, if_pos (UInt32.le_trans hdigit.2 (by decide))]
    rw [Text.byteSize, hd, ih fun c hc => h c (List.mem_cons_of_mem d hc), List.length_cons,
      Nat.add_comm]

/-- The text without the points at its end. -/
def Text.trimPoints (s : List Char) : List Char := (s.reverse.dropWhile (· == '.')).reverse

/-- A point at the end is trimmed. -/
theorem Text.trimPoints_point (s : List Char) : trimPoints (s ++ ['.']) = trimPoints s := by
  simp [trimPoints]

/-- Behind digits there is nothing to trim. -/
theorem Text.trimPoints_digits (front : List Char) (hds : Digits ds) (hne : ds ≠ []) :
    trimPoints (front ++ ds) = front ++ ds := by
  obtain ⟨ds, d, rfl⟩ := (List.eq_nil_or_concat ds).resolve_left hne
  have hd : d ≠ '.' := by
    rintro rfl
    exact absurd (hds '.' (by simp)) (by decide)
  simp [trimPoints, hd]

namespace Numeral

/-- Digits with a point lose it when it is at their end, and are the same digits without it. -/
theorem Significand.trimPoints {significand : List Char} (h : Significand significand w f)
    (front : List Char) : ∃ trimmed, Significand trimmed w f
      ∧ Text.trimPoints (front ++ significand) = front ++ trimmed := by
  cases h with
  | whole hds hne => exact ⟨w, .whole hds hne, Text.trimPoints_digits front hds hne⟩
  | point hds hfs hne =>
    by_cases hf : f = []
    · subst hf
      have hw : w ≠ [] := fun hw => hne ⟨hw, rfl⟩
      refine ⟨w, .whole hds hw, ?_⟩
      rw [← List.append_assoc, Text.trimPoints_point, Text.trimPoints_digits front hds hw]
    · refine ⟨_, .point hds hfs hne, ?_⟩
      have htrim := Text.trimPoints_digits (front ++ (w ++ ['.'])) hfs hf
      simpa using htrim

/-- Behind an exponent there is nothing to trim. -/
theorem ExponentPart.trimPoints {exponentPart : List Char} {e : Int}
    (h : ExponentPart exponentPart e) (hne : exponentPart ≠ []) (front : List Char) :
    Text.trimPoints (front ++ exponentPart) = front ++ exponentPart := by
  cases h with
  | absent => exact absurd rfl hne
  | @present c q e hc hwhole =>
    obtain ⟨hsign, hds, hdigits⟩ := hwhole
    rename_i sign ds negative
    have htrim := Text.trimPoints_digits (front ++ c :: sign) hds hdigits
    simpa using htrim

/-- Without the points at its end, a text writes the same numeral. -/
theorem Writes.trimPoints {n : Numeral} (h : Writes p n) : Writes (Text.trimPoints p) n := by
  obtain @⟨sign, significand, exponentPart, _, hsign, hsignificand, hexponent⟩ := h
  by_cases hnil : exponentPart = []
  · subst hnil
    obtain ⟨trimmed, hwrites, htrim⟩ := hsignificand.trimPoints sign
    rw [List.append_nil, htrim, ← List.append_nil (sign ++ trimmed)]
    exact .intro hsign hwrites hexponent
  · rw [hexponent.trimPoints hnil]
    exact .intro hsign hsignificand hexponent

/-- A text that writes a numeral is read as the double nearest to it. -/
theorem Writes.ofText? {n : Numeral} (h : Writes p n) :
    Extended.ofText? p = some n.decimal.nearest := by
  have hscan := scans_scan?.alone p n.decimal ⟨n, h, rfl⟩
  rw [Extended.ofText?, Decimal.ofText?, hscan]

/-! ## A reader by bytes -/

/-- The place behind a sign, or the same place when no sign stands there. -/
def signStop? (s : List Char) (place : Nat) : Option Nat := do
  let ahead ← behind? place s
  if ahead.head? = some '+' ∨ ahead.head? = some '-' then return place + 1
  else return place

/-- The place behind the digits at a place. -/
def digitsStop? (s : List Char) (place : Nat) : Option Nat := do
  let ahead ← behind? place s
  return place + (takeDigits ahead).1.length

/-- The place behind a point and its digits, when the digits in front of it stand between two
places. A point without digits on either side stays. -/
def fractionStop? (s : List Char) (start stop : Nat) : Option Nat := do
  let ahead ← behind? stop s
  if ahead.head? = some '.' then
    let fractionStop ← digitsStop? s (stop + 1)
    return if start < stop ∨ stop + 1 < fractionStop then fractionStop else stop
  else return stop

/-- The place behind an exponent. An exponent without digits is given back. -/
def exponentStop? (s : List Char) (place : Nat) : Option Nat := do
  let ahead ← behind? place s
  if ahead.head? = some 'e' ∨ ahead.head? = some 'E' then
    let start ← signStop? s (place + 1)
    let stop ← digitsStop? s start
    return if start < stop then stop else place
  else return place

/-- The place behind the numeral at the start of a text, if there is a numeral. There is no result
when the text is to be cut inside a character. -/
def numeralStop? (s : List Char) : Option (Option Nat) := do
  let start ← signStop? s 0
  let wholeStop ← digitsStop? s start
  let stop ← fractionStop? s start wholeStop
  if stop = start then return none
  let stop ← exponentStop? s stop
  return some stop

/-- The double that is read from the start of a text, if a numeral stands there. There is no result
when the text is to be cut inside a character, or when what is cut out cannot be read. -/
def readStart? (s : List Char) : Option (Option Extended) := do
  match ← numeralStop? s with
  | none => return none
  | some stop =>
    let part ← Text.slice? 0 stop s
    let found ← Extended.ofText? (Text.trimPoints part)
    return some found

/-- The reader steps over a sign. -/
theorem exists_signStop? (h : behind? place s = some ahead) :
    ∃ stop, signStop? s place = some stop ∧ behind? stop s = some (takeSign ahead).2 := by
  simp only [signStop?, h, Option.bind_eq_bind, Option.bind_some]
  by_cases hhead : ahead.head? = some '+' ∨ ahead.head? = some '-'
  · rw [if_pos hhead]
    rcases hhead with hhead | hhead
    · obtain ⟨r, rfl⟩ := List.head?_eq_some_iff.1 hhead
      exact ⟨place + 1, rfl, behind?_add ['+'] h⟩
    · obtain ⟨r, rfl⟩ := List.head?_eq_some_iff.1 hhead
      exact ⟨place + 1, rfl, behind?_add ['-'] h⟩
  · have hnone : takeSign ahead = (false, ahead) := by
      refine takeSign_append .none fun c hc => ⟨?_, ?_⟩
      · rintro rfl
        exact hhead (.inr hc)
      · rintro rfl
        exact hhead (.inl hc)
    rw [if_neg hhead, hnone]
    exact ⟨place, rfl, h⟩

/-- The reader steps over digits. -/
theorem digitsStop?_eq (h : behind? place s = some ahead) :
    digitsStop? s place = some (place + (takeDigits ahead).1.length)
      ∧ behind? (place + (takeDigits ahead).1.length) s = some (takeDigits ahead).2 := by
  constructor
  · simp only [digitsStop?, h, Option.bind_eq_bind, Option.bind_some]
    rfl
  · rw [← (digits_takeDigits ahead).byteSize_eq]
    refine behind?_add _ ?_
    rwa [takeDigits_append]

/-- The reader steps over a point and its digits. It stays where it was in front of all digits
exactly when there are none. -/
theorem exists_fractionStop? (h : behind? (start + w.length) s = some ahead) :
    ∃ stop, fractionStop? s start (start + w.length) = some stop
      ∧ behind? stop s = some (takeFraction w ahead).2
      ∧ (stop = start ↔ w = [] ∧ (takeFraction w ahead).1 = []) := by
  simp only [fractionStop?, h, Option.bind_eq_bind, Option.bind_some]
  by_cases hpoint : ahead.head? = some '.'
  · obtain ⟨t, rfl⟩ := List.head?_eq_some_iff.1 hpoint
    obtain ⟨hdigits, hbehind⟩ := digitsStop?_eq (behind?_add ['.'] h)
    have hplace : start + w.length + Text.byteSize ['.'] = start + w.length + 1 := rfl
    rw [hplace] at hdigits hbehind
    rw [if_pos hpoint, hdigits, Option.bind_some, takeFraction]
    -- the places tell whether there are digits in front of the point or behind it
    by_cases hnil : w = [] ∧ (takeDigits t).1 = []
    · rw [if_pos hnil]
      have hstays : ¬ (start < start + w.length
          ∨ start + w.length + 1 < start + w.length + 1 + (takeDigits t).1.length) := by
        simp [hnil.1, hnil.2]
      rw [if_neg hstays]
      exact ⟨_, rfl, h, by simp [hnil.1]⟩
    · rw [if_neg hnil]
      have hmoves : start < start + w.length
          ∨ start + w.length + 1 < start + w.length + 1 + (takeDigits t).1.length := by
        rw [← List.length_eq_zero_iff, ← List.length_eq_zero_iff] at hnil
        omega
      rw [if_pos hmoves]
      exact ⟨_, rfl, hbehind, iff_of_false (by omega) hnil⟩
  · have hhead : ∀ c ∈ ahead.head?, c ≠ '.' := by
      rintro c hc rfl
      exact hpoint hc
    rw [if_neg hpoint, takeFraction_of_head w hhead]
    refine ⟨_, rfl, h, ?_⟩
    simp

/-- The reader steps over an exponent. -/
theorem exists_exponentStop? (h : behind? place s = some ahead) :
    ∃ stop, exponentStop? s place = some stop ∧ behind? stop s = some (takeExponent ahead).2 := by
  simp only [exponentStop?, h, Option.bind_eq_bind, Option.bind_some]
  cases ahead with
  | nil => exact ⟨place, rfl, h⟩
  | cons c r =>
    simp only [List.head?_cons, Option.some_inj]
    rw [takeExponent]
    by_cases hc : c = 'e' ∨ c = 'E'
    · have hplace : place + Text.byteSize [c] = place + 1 := by
        rcases hc with rfl | rfl <;> rfl
      obtain ⟨start, hstart, hsign⟩ := exists_signStop? (behind?_add [c] h)
      obtain ⟨hdigits, hbehind⟩ := digitsStop?_eq hsign
      rw [hplace] at hstart
      rw [if_pos hc, if_pos hc, hstart, Option.bind_some, hdigits, Option.bind_some,
        scanWhole?_eq]
      -- without digits the sign and the letter are given back
      by_cases hnil : (takeDigits (takeSign r).2).1 = []
      · rw [if_pos hnil, hnil, List.length_nil, Nat.add_zero, if_neg (Nat.lt_irrefl start)]
        exact ⟨place, rfl, h⟩
      · have hmoves : start < start + (takeDigits (takeSign r).2).1.length :=
          Nat.lt_add_of_pos_right (List.length_pos_iff.2 hnil)
        rw [if_neg hnil, if_pos hmoves]
        exact ⟨_, rfl, hbehind⟩
    · rw [if_neg hc, if_neg hc]
      exact ⟨place, rfl, h⟩

/-- **The reader by bytes stops where the scan does**, and finds no numeral where the scan finds
none. -/
theorem numeralStop?_spec (s : List Char) :
    (scan? s = none → numeralStop? s = some none)
    ∧ ∀ d rest, scan? s = some (d, rest) →
      ∃ stop, numeralStop? s = some (some stop) ∧ behind? stop s = some rest := by
  obtain ⟨start, hstart, hsign⟩ := exists_signStop? (Text.behind?_zero s)
  obtain ⟨hdigits, hwhole⟩ := digitsStop?_eq hsign
  obtain ⟨stop, hstop, hfraction, hnone⟩ := exists_fractionStop? hwhole
  obtain ⟨stop', hstop', hexponent⟩ := exists_exponentStop? hfraction
  simp only [numeralStop?, hstart, hdigits, hstop, hstop', scan?_eq, Option.bind_eq_bind,
    Option.bind_some]
  by_cases hnil : stop = start
  · rw [if_pos hnil, if_pos (hnone.1 hnil)]
    refine ⟨fun _ => rfl, fun d rest h => ?_⟩
    cases h
  · rw [if_neg hnil, if_neg fun h => hnil (hnone.2 h)]
    refine ⟨fun h => absurd h (Option.some_ne_none _), fun d rest h => ?_⟩
    cases h
    exact ⟨stop', rfl, hexponent⟩

/-- **The reader by bytes never fails**, and reads the double nearest to what the scan takes. -/
theorem readStart?_eq (s : List Char) : readStart? s = some (Number.floatStart? s) := by
  obtain ⟨hnone, hsome⟩ := numeralStop?_spec s
  rw [Number.floatStart?, readStart?]
  cases hscan : scan? s with
  | none =>
    rw [hnone hscan]
    rfl
  | some found =>
    obtain ⟨d, rest⟩ := found
    obtain ⟨stop, hstop, hbehind⟩ := hsome d rest hscan
    obtain ⟨p, rfl, hpart⟩ := Text.exists_slice?_of_behind? hbehind
    obtain ⟨n, hwrites, rfl⟩ := (scans_scan?.eq_some_iff.1 hscan).writes
    simp only [hstop, hpart, hwrites.trimPoints.ofText?, Option.bind_eq_bind, Option.bind_some]
    rfl

end Numeral

/-! ## The double at the start of a text -/

namespace Number

open Numeral (Significand Writes)

/-- No double stands at the start of a text exactly when no start writes the digits of a numeral,
with a sign or without. -/
theorem floatStart?_eq_none_iff : floatStart? s = none ↔ ∀ sign significand negative w f,
    Sign sign negative → Significand significand w f → ¬ sign ++ significand <+: s := by
  rw [floatStart?, Option.map_eq_none_iff, Numeral.scans_scan?.eq_none_iff]
  constructor
  · intro h sign significand negative w f hsign hsignificand hstart
    have hwrites := Writes.intro (n := ⟨negative, w, f, 0⟩) hsign hsignificand .absent
    rw [List.append_nil] at hwrites
    exact h _ _ hstart ⟨_, hwrites, rfl⟩
  · rintro h p d hstart ⟨n, hwrites, rfl⟩
    obtain ⟨hsign, hsignificand, hexponent⟩ := hwrites
    exact h _ _ _ _ _ hsign hsignificand ((List.prefix_append _ _).trans hstart)

/-- The double at the start of a text is what the numeral of its longest start is rounded to. -/
theorem floatStart?_eq_some_iff {o : Extended} : floatStart? s = some o ↔
    ∃ p n, LongestStart Writes s p n ∧ Rounded n.negative n.magnitude o := by
  have hfst : floatStart? s = ((scan? s).map Prod.fst).map Decimal.nearest := by
    rw [floatStart?, Option.map_map]
    rfl
  rw [hfst, Option.map_eq_some_iff]
  simp only [Numeral.scans_scan?.map_fst_eq_some_iff, Text.longestStart_image_iff]
  constructor
  · rintro ⟨-, ⟨p, n, hlongest, rfl⟩, hnearest⟩
    rw [Decimal.nearest_eq_iff, Numeral.magnitude_decimal] at hnearest
    exact ⟨p, n, hlongest, hnearest⟩
  · rintro ⟨p, n, hlongest, hrounded⟩
    refine ⟨n.decimal, ⟨p, n, hlongest, rfl⟩, ?_⟩
    rwa [Decimal.nearest_eq_iff, Numeral.magnitude_decimal]

/-- **The double at the start of a text is that of the longest numeral there.** There is none
exactly when the text begins with no digits and with no point in front of a digit, behind a sign or
without one. Otherwise it is what the numeral is rounded to that the longest start writes, infinite
when that is out of range, whatever follows. The reader by bytes finds the same, so it never cuts a
text inside a character, and what it cuts out can always be read.

**Proof sketch.** The scan takes the longest start that writes a numeral. The reader by bytes steps
over the same parts, all of which are one byte for each character, and the points that it trims
belong to a numeral that is the same without them. -/
theorem floatStart?_longest (s : List Char) :
    (floatStart? s = none ↔ ∀ sign significand negative w f,
      Sign sign negative → Significand significand w f → ¬ sign ++ significand <+: s)
    ∧ (∀ o, floatStart? s = some o ↔
      ∃ p n, LongestStart Writes s p n ∧ Rounded n.negative n.magnitude o)
    ∧ Numeral.readStart? s = some (floatStart? s) :=
  ⟨floatStart?_eq_none_iff, fun _ => floatStart?_eq_some_iff, Numeral.readStart?_eq s⟩

/-- An exponent without digits, which is given back; an exponent behind a point that is out of
range; a point without digits; and a point at the end, which is trimmed. -/
theorem floatStart?_longest_given_back :
    (∃ p n, LongestStart Writes "-.5e-kg".toList p n
      ∧ Rounded n.negative n.magnitude (.finite ⟨true, 4503599627370496, -53, by decide⟩))
    ∧ (∃ p n, LongestStart Writes "1.e400x".toList p n
      ∧ Rounded n.negative n.magnitude (.infinite false))
    ∧ (∀ sign significand negative w f, Sign sign negative → Significand significand w f →
      ¬ sign ++ significand <+: "+.e1".toList)
    ∧ Numeral.readStart? "1.é".toList
      = some (some (.finite ⟨false, 4503599627370496, -52, by decide⟩)) :=
  ⟨((floatStart?_longest _).2.1 _).1 (by decide +kernel),
    ((floatStart?_longest _).2.1 _).1 (by decide +kernel),
    (floatStart?_longest _).1.1 (by decide +kernel),
    (floatStart?_longest _).2.2.trans (by decide +kernel)⟩

end Number

end Stencil
