import Stencil.Numeric.Decimal
import Stencil.Proofs.Text.Longest

/-!
# Written numbers

The grammar of whole numbers and of numerals, and the scans that take them from the start of a text.
A whole number is a run of digits behind an optional sign. A numeral may have a point among its
digits, in front of them or behind them, and an exponent, which is a whole number behind an `e`.
A point and an `e` belong to a numeral only together with their digits, so that a scan has to look
ahead and to give back what it cannot use.

## Main definitions

* `Stencil.Decimal.Digits`, `Stencil.Decimal.Sign` — texts of digits, and signs.
* `Stencil.Decimal.WritesWhole` — a text writes a whole number.
* `Stencil.Numeral` — the parts of a numeral.
* `Stencil.Numeral.Significand`, `Stencil.Numeral.ExponentPart`, `Stencil.Numeral.Writes` — a text
  writes these parts.

## Main results

* `Stencil.Decimal.scans_scanWhole?`, `Stencil.Numeral.scans_scan?` — the scans take what is
  written.
-/

set_option autoImplicit false

namespace Stencil

namespace Decimal

variable {s r p ds sign behind : List Char} {negative : Bool} {n : Int}

/-! ## Digits and signs -/

/-- A text of digits only. -/
def Digits (s : List Char) : Prop := ∀ c ∈ s, c.isDigit = true

/-- The text does not begin with a digit. -/
def NoDigit (s : List Char) : Prop := ∀ c ∈ s.head?, c.isDigit = false

/-- A sign or none, and whether it is that of a negative number. -/
inductive Sign : List Char → Bool → Prop where
  | none : Sign [] false
  | plus : Sign ['+'] false
  | minus : Sign ['-'] true

/-- The digits that a scan takes are digits. -/
theorem digits_takeDigits (s : List Char) : Digits (takeDigits s).1 :=
  List.all_eq_true.1 List.all_takeWhile

/-- What a scan of digits leaves is what the text ends with. -/
theorem takeDigits_suffix (s : List Char) : (takeDigits s).2 <:+ s :=
  List.dropWhile_suffix Char.isDigit

/-- Digits in front of a text are taken with its own. -/
theorem takeDigits_digits_append (h : Digits ds) (s : List Char) :
    takeDigits (ds ++ s) = (ds ++ (takeDigits s).1, (takeDigits s).2) := by
  rw [takeDigits, List.takeWhile_append_of_pos h, List.dropWhile_append_of_pos h]
  rfl

/-- From a text that begins with no digit, none is taken. -/
theorem takeDigits_of_noDigit (h : NoDigit s) : takeDigits s = ([], s) := by
  cases s with
  | nil => rfl
  | cons c r =>
    have hc : c.isDigit = false := h c rfl
    simp [takeDigits, hc]

/-- A start of a text that begins with no digit begins with none. -/
theorem NoDigit.of_start (h : NoDigit s) (hp : p <+: s) : NoDigit p := by
  obtain ⟨rest, rfl⟩ := hp
  cases p with
  | nil =>
    rintro c ⟨⟩
  | cons d r =>
    rintro c ⟨⟩
    exact h d rfl

/-- Digits are taken up to a character that is none. -/
theorem takeDigits_append_of_noDigit (h : Digits ds) (hs : NoDigit s) :
    takeDigits (ds ++ s) = (ds, s) := by
  rw [takeDigits_digits_append h, takeDigits_of_noDigit hs, List.append_nil]

/-- A scan takes a sign or none. -/
theorem exists_sign (s : List Char) :
    ∃ sign, Sign sign (takeSign s).1 ∧ s = sign ++ (takeSign s).2 := by
  rw [takeSign.eq_def]
  split
  · exact ⟨_, .minus, rfl⟩
  · exact ⟨_, .plus, rfl⟩
  · exact ⟨_, .none, rfl⟩

/-- A sign is taken in front of what is no sign. -/
theorem takeSign_append (hsign : Sign sign negative) (hr : ∀ c ∈ r.head?, c ≠ '-' ∧ c ≠ '+') :
    takeSign (sign ++ r) = (negative, r) := by
  cases hsign with
  | none =>
    rw [List.nil_append, takeSign.eq_def]
    split
    · exact absurd rfl (hr '-' rfl).1
    · exact absurd rfl (hr '+' rfl).2
    · rfl
  | plus => rfl
  | minus => rfl

/-- Digits are no signs. -/
theorem Digits.head_ne_sign (h : Digits ds) (hne : ds ≠ []) (s : List Char) :
    ∀ c ∈ (ds ++ s).head?, c ≠ '-' ∧ c ≠ '+' := by
  obtain ⟨d, ds, rfl⟩ := List.exists_cons_of_ne_nil hne
  have hd : d.isDigit = true := h d List.mem_cons_self
  rintro c ⟨⟩
  constructor <;> rintro rfl <;> cases hd

/-! ## Whole numbers -/

/-- The whole number with this sign and these digits. -/
def signed (negative : Bool) (ds : List Char) : Int :=
  if negative then -(ofDigits ds : Int) else ofDigits ds

/-- A text writes a whole number: digits, and a sign or none in front of them. -/
inductive WritesWhole : List Char → Int → Prop where
  | intro {sign ds : List Char} {negative : Bool} (hsign : Sign sign negative) (hds : Digits ds)
      (hne : ds ≠ []) : WritesWhole (sign ++ ds) (signed negative ds)

/-- The scan of a whole number takes a sign and digits, and fails without digits. -/
theorem scanWhole?_eq (s : List Char) :
    scanWhole? s = if (takeDigits (takeSign s).2).1 = [] then none
      else some (signed (takeSign s).1 (takeDigits (takeSign s).2).1,
        (takeDigits (takeSign s).2).2) := by
  rw [scanWhole?]
  split
  · next negative r hsign =>
    rw [hsign]
    dsimp only
    split
    · next h => rw [h, if_pos rfl]
    · next ds rest hne h =>
      rw [h, if_neg hne]
      rfl

/-- A whole number is taken with all digits that follow it. -/
theorem scanWhole?_append (hsign : Sign sign negative) (hds : Digits ds) (hne : ds ≠ [])
    (behind : List Char) : scanWhole? (sign ++ ds ++ behind)
      = some (signed negative (ds ++ (takeDigits behind).1), (takeDigits behind).2) := by
  have htaken : takeSign (sign ++ ds ++ behind) = (negative, ds ++ behind) := by
    rw [List.append_assoc]
    exact takeSign_append hsign (hds.head_ne_sign hne behind)
  have hdigits : ds ++ (takeDigits behind).1 ≠ [] := by simp [hne]
  rw [scanWhole?_eq, htaken, takeDigits_digits_append hds, if_neg hdigits]

/-- A whole number is taken up to a character that is no digit. -/
theorem WritesWhole.scanWhole?_append (h : WritesWhole p n) (hbehind : NoDigit behind) :
    scanWhole? (p ++ behind) = some (n, behind) := by
  obtain ⟨hsign, hds, hne⟩ := h
  rw [Decimal.scanWhole?_append hsign hds hne, takeDigits_of_noDigit hbehind, List.append_nil]

/-- **The scan takes a whole number from the start of a text.** -/
theorem scans_scanWhole? : Text.Scans scanWhole? WritesWhole := by
  refine ⟨fun s n rest h => ?_, fun p n behind h => ?_, fun p n h => ?_⟩
  · obtain ⟨sign, hsign, hs⟩ := exists_sign s
    rw [scanWhole?_eq] at h
    split at h
    · cases h
    · next hne =>
      cases h
      refine ⟨sign ++ (takeDigits (takeSign s).2).1, ?_, .intro hsign (digits_takeDigits _) hne⟩
      rw [List.append_assoc, takeDigits_append]
      exact hs
  · obtain ⟨hsign, hds, hne⟩ := h
    exact ⟨_, _, scanWhole?_append hsign hds hne behind, takeDigits_suffix behind⟩
  · obtain ⟨hsign, hds, hne⟩ := h
    have hscan := scanWhole?_append hsign hds hne []
    simpa [takeDigits] using hscan

end Decimal

/-! ## Numerals -/

/-- The parts of a numeral: its sign, the digits in front of the point and behind it, and the
exponent. -/
structure Numeral where
  negative : Bool
  whole : List Char
  fraction : List Char
  exponent : Int

namespace Numeral

open Decimal

variable {s r w f significand exponentPart : List Char} {e : Int}

/-- The decimal that the parts of a numeral make. -/
def decimal (n : Numeral) : Decimal :=
  ⟨n.negative, ofDigits (n.whole ++ n.fraction), n.exponent - n.fraction.length⟩

/-- A text writes the digits of a numeral: digits without a point, or a point with digits in front
of it or behind it. -/
inductive Significand : List Char → List Char → List Char → Prop where
  | whole {ds : List Char} (hds : Digits ds) (hne : ds ≠ []) : Significand ds ds []
  | point {ds fs : List Char} (hds : Digits ds) (hfs : Digits fs) (hne : ¬ (ds = [] ∧ fs = [])) :
    Significand (ds ++ '.' :: fs) ds fs

/-- A text writes the exponent of a numeral: an `e` with a whole number, or nothing. -/
inductive ExponentPart : List Char → Int → Prop where
  | absent : ExponentPart [] 0
  | present {c : Char} {p : List Char} {e : Int} (hc : c = 'e' ∨ c = 'E') (h : WritesWhole p e) :
    ExponentPart (c :: p) e

/-- A text writes a numeral: a sign or none, digits with a point or without, and an exponent or
none. -/
inductive Writes : List Char → Numeral → Prop where
  | intro {sign significand exponentPart : List Char} {n : Numeral} (hsign : Sign sign n.negative)
      (hsignificand : Significand significand n.whole n.fraction)
      (hexponent : ExponentPart exponentPart n.exponent) :
      Writes (sign ++ significand ++ exponentPart) n

/-! ### Exponents -/

/-- An exponent is taken, with all digits that follow it. -/
theorem takeExponent_append (h : ExponentPart exponentPart e) (hne : exponentPart ≠ [])
    (behind : List Char) :
    ∃ e', takeExponent (exponentPart ++ behind) = (e', (takeDigits behind).2)
      ∧ (behind = [] → e' = e) := by
  cases h with
  | absent => exact absurd rfl hne
  | @present c p e hc h =>
    obtain ⟨hsign, hds, hdigits⟩ := h
    have hscan := scanWhole?_append hsign hds hdigits behind
    rw [List.cons_append, takeExponent, if_pos hc, hscan]
    refine ⟨_, rfl, ?_⟩
    rintro rfl
    simp [takeDigits]

/-- An exponent alone is taken. -/
theorem takeExponent_of_exponentPart (h : ExponentPart exponentPart e) :
    takeExponent exponentPart = (e, []) := by
  by_cases hne : exponentPart = []
  · subst hne
    cases h
    rfl
  · obtain ⟨e', htaken, he⟩ := takeExponent_append h hne []
    rw [List.append_nil] at htaken
    rw [htaken, he rfl]
    rfl

/-- What is taken of an exponent is one, or nothing. -/
theorem exists_exponentPart (s : List Char) :
    ∃ exponentPart, ExponentPart exponentPart (takeExponent s).1
      ∧ s = exponentPart ++ (takeExponent s).2 := by
  cases s with
  | nil => exact ⟨[], .absent, rfl⟩
  | cons c r =>
    rw [takeExponent]
    split
    · next hc =>
      cases hscan : scanWhole? r with
      | none => exact ⟨[], .absent, rfl⟩
      | some found =>
        obtain ⟨e, rest⟩ := found
        obtain ⟨p, rfl, hwrites⟩ := scans_scanWhole?.sound r e rest hscan
        exact ⟨c :: p, .present hc hwrites, rfl⟩
    · exact ⟨[], .absent, rfl⟩

/-- An exponent begins with no digit and no point. -/
theorem ExponentPart.head (h : ExponentPart exponentPart e) (hne : exponentPart ≠ [])
    (behind : List Char) : ∀ c ∈ (exponentPart ++ behind).head?, c.isDigit = false ∧ c ≠ '.' := by
  cases h with
  | absent => exact absurd rfl hne
  | present hc h =>
    rintro c ⟨⟩
    rcases hc with rfl | rfl <;> decide

/-! ### Fractions -/

/-- The digits behind a point, when the scan is behind the digits `w` in front of it, and the rest.
A point without digits on either side is not taken. -/
def takeFraction (w : List Char) : List Char → List Char × List Char
  | '.' :: t => if w = [] ∧ (takeDigits t).1 = [] then ([], '.' :: t) else takeDigits t
  | r => ([], r)

/-- No point is taken where there is none. -/
theorem takeFraction_of_head (w : List Char) (h : ∀ c ∈ r.head?, c ≠ '.') :
    takeFraction w r = ([], r) := by
  rw [takeFraction.eq_def]
  split
  · exact absurd rfl (h '.' rfl)
  · rfl

/-- The scan of a numeral takes a sign, digits, a fraction and an exponent, and fails without
digits. -/
theorem scan?_eq (s : List Char) :
    scan? s =
      let w := takeDigits (takeSign s).2
      let f := takeFraction w.1 w.2
      if w.1 = [] ∧ f.1 = [] then none
      else some (decimal ⟨(takeSign s).1, w.1, f.1, (takeExponent f.2).1⟩,
        (takeExponent f.2).2) := by
  rw [scan?]
  generalize takeSign s = signTaken
  obtain ⟨negative, r⟩ := signTaken
  dsimp only
  generalize takeDigits r = wholeTaken
  obtain ⟨w, r'⟩ := wholeTaken
  dsimp only
  split
  · rfl
  · next hpoint =>
    have hhead : ∀ c ∈ r'.head?, c ≠ '.' := by
      rintro c hc rfl
      obtain ⟨t, ht⟩ := List.head?_eq_some_iff.1 hc
      exact hpoint t ht
    rw [takeFraction_of_head w hhead]
    rfl

/-- The parts that a scan takes, one after the other, make the numeral that it takes. -/
theorem scan?_of_taken {negative : Bool} {r' r'' : List Char} (hsign : takeSign s = (negative, r))
    (hwhole : takeDigits r = (w, r')) (hfraction : takeFraction w r' = (f, r''))
    (hne : ¬ (w = [] ∧ f = [])) :
    scan? s = some (decimal ⟨negative, w, f, (takeExponent r'').1⟩, (takeExponent r'').2) := by
  simp only [scan?_eq, hsign, hwhole, hfraction, if_neg hne]

/-- Where there are digits in front of a point or behind it, there are with more digits behind. -/
theorem not_nil_append (hne : ¬ (w = [] ∧ f = [])) (ds : List Char) :
    ¬ (w = [] ∧ f ++ ds = []) := fun h =>
  hne ⟨h.1, (List.append_eq_nil_iff.1 h.2).1⟩

/-- A point is taken with the digits behind it, and with all digits that follow these. -/
theorem takeFraction_point (hf : Digits f) (hne : ¬ (w = [] ∧ f = [])) (behind : List Char) :
    takeFraction w ('.' :: (f ++ behind))
      = (f ++ (takeDigits behind).1, (takeDigits behind).2) := by
  rw [takeFraction, takeDigits_digits_append hf]
  exact if_neg (not_nil_append hne _)

/-- What is left behind a fraction is what the text ends with. -/
theorem takeFraction_suffix (w r : List Char) : (takeFraction w r).2 <:+ r := by
  rw [takeFraction.eq_def]
  split
  · next t =>
    split
    · exact List.suffix_rfl
    · exact (takeDigits_suffix t).trans (List.suffix_cons '.' t)
  · exact List.suffix_rfl

/-- The digits that are taken, with a fraction or without, are those of a numeral. -/
theorem exists_significand (hw : Digits w) (hne : ¬ (w = [] ∧ (takeFraction w r).1 = [])) :
    ∃ significand, Significand significand w (takeFraction w r).1
      ∧ w ++ r = significand ++ (takeFraction w r).2 := by
  rw [takeFraction.eq_def] at hne ⊢
  split at hne
  · next t =>
    by_cases hnil : w = [] ∧ (takeDigits t).1 = []
    · rw [if_pos hnil] at hne
      exact absurd ⟨hnil.1, rfl⟩ hne
    · rw [if_neg hnil]
      refine ⟨_, .point hw (digits_takeDigits t) hnil, ?_⟩
      rw [List.append_assoc, List.cons_append, takeDigits_append]
  · exact ⟨w, .whole hw fun hnil => hne ⟨hnil, rfl⟩, rfl⟩

/-! ### Whole numerals -/

/-- The digits of a numeral begin with no sign. -/
theorem Significand.head_ne_sign (h : Significand significand w f) (r : List Char) :
    ∀ c ∈ (significand ++ r).head?, c ≠ '-' ∧ c ≠ '+' := by
  cases h with
  | whole hds hne => exact hds.head_ne_sign hne r
  | @point ds fs hds hfs hne =>
    by_cases hnil : w = []
    · subst hnil
      rintro c ⟨⟩
      decide
    · rw [List.append_assoc]
      exact hds.head_ne_sign hnil _

/-- The digits of a numeral are taken, with more digits or a fraction from what follows. -/
theorem Significand.exists_taken (h : Significand significand w f) (behind : List Char) :
    ∃ w' r' f' r'', takeDigits (significand ++ behind) = (w', r') ∧ takeFraction w' r' = (f', r'')
      ∧ ¬ (w' = [] ∧ f' = []) ∧ r'' <:+ behind := by
  cases h with
  | whole hds hne =>
    refine ⟨_, _, _, _, takeDigits_digits_append hds behind, rfl, ?_, ?_⟩
    · simp [hne]
    · exact (takeFraction_suffix _ _).trans (takeDigits_suffix behind)
  | point hds hfs hne =>
    have hpoint : NoDigit ('.' :: (f ++ behind)) := by
      rintro c ⟨⟩
      rfl
    refine ⟨w, '.' :: (f ++ behind), _, _, ?_, takeFraction_point hfs hne behind,
      not_nil_append hne _, takeDigits_suffix behind⟩
    rw [List.append_assoc]
    exact takeDigits_append_of_noDigit hds hpoint

/-- The digits of a numeral are taken as they are, when neither a digit nor a point follows. -/
theorem Significand.taken (h : Significand significand w f)
    (hr : ∀ c ∈ r.head?, c.isDigit = false ∧ c ≠ '.') :
    ∃ r', takeDigits (significand ++ r) = (w, r') ∧ takeFraction w r' = (f, r)
      ∧ ¬ (w = [] ∧ f = []) := by
  have hdigit : NoDigit r := fun c hc => (hr c hc).1
  cases h with
  | whole hds hne =>
    refine ⟨r, takeDigits_append_of_noDigit hds hdigit, takeFraction_of_head w ?_, ?_⟩
    · exact fun c hc => (hr c hc).2
    · exact fun hnil => hne hnil.1
  | point hds hfs hne =>
    have hpoint : NoDigit ('.' :: (f ++ r)) := by
      rintro c ⟨⟩
      rfl
    refine ⟨'.' :: (f ++ r), ?_, ?_, hne⟩
    · rw [List.append_assoc]
      exact takeDigits_append_of_noDigit hds hpoint
    · rw [takeFraction_point hfs hne, takeDigits_of_noDigit hdigit, List.append_nil]

/-- **The scan takes a numeral from the start of a text.**

**Proof sketch.** An exponent stops the digits in front of it, so that all parts are taken as they
are written, the digits of the exponent with more of them from what follows. Without an exponent the
digits, a fraction and an exponent may be taken from what follows. -/
theorem scans_scan? :
    Text.Scans scan? fun p d => ∃ n : Numeral, Writes p n ∧ n.decimal = d := by
  refine ⟨fun s d rest h => ?_, ?_, ?_⟩
  · obtain ⟨sign, hsign, hs⟩ := exists_sign s
    rw [scan?_eq] at h
    dsimp only at h
    split at h
    · cases h
    · next hne =>
      obtain ⟨significand, hsignificand, hdigits⟩ :=
        exists_significand (digits_takeDigits (takeSign s).2) hne
      obtain ⟨exponentPart, hexponent, hrest⟩ := exists_exponentPart
        (takeFraction (takeDigits (takeSign s).2).1 (takeDigits (takeSign s).2).2).2
      cases h
      refine ⟨sign ++ significand ++ exponentPart, ?_, _, .intro hsign hsignificand hexponent, rfl⟩
      rw [takeDigits_append] at hdigits
      rw [List.append_assoc, ← hrest, List.append_assoc, ← hdigits]
      exact hs
  · rintro p d behind ⟨n, hwrites, rfl⟩
    obtain @⟨sign, significand, exponentPart, _, hsign, hsignificand, hexponent⟩ := hwrites
    rw [List.append_assoc, List.append_assoc]
    have htaken := takeSign_append hsign (hsignificand.head_ne_sign (exponentPart ++ behind))
    by_cases hnil : exponentPart = []
    · subst hnil
      obtain ⟨w', r', f', r'', hwhole, hfraction, hne, hrest⟩ := hsignificand.exists_taken behind
      obtain ⟨_, -, hexponent'⟩ := exists_exponentPart r''
      refine ⟨_, _, scan?_of_taken htaken hwhole hfraction hne, ?_⟩
      exact List.IsSuffix.trans ⟨_, hexponent'.symm⟩ hrest
    · obtain ⟨r', hwhole, hfraction, hne⟩ := hsignificand.taken (hexponent.head hnil behind)
      obtain ⟨e', hexponent', -⟩ := takeExponent_append hexponent hnil behind
      refine ⟨_, _, scan?_of_taken htaken hwhole hfraction hne, ?_⟩
      rw [hexponent']
      exact takeDigits_suffix behind
  · rintro p d ⟨n, hwrites, rfl⟩
    obtain @⟨sign, significand, exponentPart, _, hsign, hsignificand, hexponent⟩ := hwrites
    have hhead : ∀ c ∈ exponentPart.head?, c.isDigit = false ∧ c ≠ '.' := by
      by_cases hnil : exponentPart = []
      · subst hnil
        rintro c ⟨⟩
      · have hbegin := hexponent.head hnil []
        rwa [List.append_nil] at hbegin
    have htaken := takeSign_append hsign (hsignificand.head_ne_sign exponentPart)
    obtain ⟨r', hwhole, hfraction, hne⟩ := hsignificand.taken hhead
    have hscan := scan?_of_taken htaken hwhole hfraction hne
    rwa [takeExponent_of_exponentPart hexponent, ← List.append_assoc] at hscan

end Numeral

end Stencil
