import Stencil.Proofs.Text.Occurrence
import Stencil.Template.Segments

/-!
# Scanning a template

Which placeholders a scan reports. A placeholder is a nonempty run of body characters between double
braces; two of them never overlap, so none that is written in the template is missed, and literal
text without an opening brace is scanned to itself.

## Main definitions

* `Stencil.Template.IsBody` — a nonempty run of body characters.
* `Stencil.Template.Segments.literals` — the literal texts of a template.
* `Stencil.Template.Segments.Plain` — placeholders in literal text without opening braces.

## Main results

* `Stencil.Template.hole?_eq_some_iff` — which texts start with a placeholder.
* `Stencil.Template.unbordered_wrap` — a written placeholder does not overlap itself.
* `Stencil.Template.mem_occurrences_segments_iff` — the written placeholders are reported, each in
  its place, and nothing else.
* `Stencil.Template.segments_text_of_plain` — plain segments are found again in their text.
-/

set_option autoImplicit false

namespace Stencil.Template

/-! ## Bodies -/

/-- A nonempty run of body characters. -/
structure IsBody (body : List Char) : Prop where
  ne_nil : body ≠ []
  isBodyChar_of_mem : ∀ c ∈ body, isBodyChar c = true

/-- A body has no opening brace. -/
theorem IsBody.opening_not_mem {body : List Char} (h : IsBody body) : '\x7b' ∉ body := fun hmem =>
  absurd (h.isBodyChar_of_mem _ hmem) (by decide)

/-- The written form of a placeholder, brace by brace. -/
theorem wrap_eq_cons (body : List Char) :
    wrap body = '\x7b' :: '\x7b' :: (body ++ ['\x7d', '\x7d']) := rfl

/-- In front of closing braces, the body is the longest run of body characters. -/
theorem IsBody.takeWhile_append {body : List Char} (h : IsBody body) (rest : List Char) :
    (body ++ (closing ++ rest)).takeWhile isBodyChar = body := by
  have hclose : isBodyChar '\x7d' = false := by decide
  rw [List.takeWhile_append_of_pos h.isBodyChar_of_mem]
  simp [closing, hclose]

/-- A text starts with a placeholder exactly when it starts with the written form of a body. -/
theorem hole?_eq_some_iff {s body rest : List Char} :
    hole? s = some (body, rest) ↔ IsBody body ∧ s = wrap body ++ rest := by
  constructor
  · intro h
    refine ⟨?_, eq_append_of_hole? h⟩
    simp only [hole?, Option.bind_eq_bind, Option.bind_eq_some_iff] at h
    obtain ⟨inside, -, after, -, h⟩ := h
    split at h
    · cases h
    · next hne =>
      cases h
      exact ⟨hne, fun c hc => List.all_eq_true.1 List.all_takeWhile c hc⟩
  · rintro ⟨hb, rfl⟩
    have hopen : Text.dropStart? opening (wrap body ++ rest) = some (body ++ (closing ++ rest)) :=
      Text.dropStart?_eq_some_iff.2 (by simp [wrap])
    have htake := hb.takeWhile_append rest
    have hdrop : (body ++ (closing ++ rest)).dropWhile isBodyChar = closing ++ rest := by
      have hsplit := List.takeWhile_append_dropWhile (p := isBodyChar)
        (l := body ++ (closing ++ rest))
      rwa [htake, List.append_cancel_left_eq] at hsplit
    have hrest : Text.dropStart? closing (closing ++ rest) = some rest :=
      Text.dropStart?_eq_some_iff.2 rfl
    simp only [hole?, Option.bind_eq_bind, hopen, Option.bind_some, htake, hdrop, hrest,
      if_neg hb.ne_nil]

/-- A text that starts with no opening brace starts with no placeholder. -/
theorem hole?_cons_eq_none {c : Char} (hc : c ≠ '\x7b') (r : List Char) :
    hole? (c :: r) = none := by
  rw [Option.eq_none_iff_forall_ne_some]
  rintro ⟨body, rest⟩ h
  obtain ⟨-, h⟩ := hole?_eq_some_iff.1 h
  exact hc (List.cons.inj h).1

/-! ## Overlaps -/

/-- Behind its first brace, no part of a written placeholder is the start of a written placeholder.

**Proof sketch.** Such a part starts with an opening brace, so it is all but the first brace, and
the body would start with the second brace of the other placeholder. -/
theorem not_wrap_prefix_of_suffix {body other q t : List Char} (hb : IsBody body) (hne : q ≠ [])
    (hq : q <:+ wrap body) (hne' : q ≠ wrap body) : ¬ wrap other <+: q ++ t := by
  rintro ⟨u, hu⟩
  rw [wrap_eq_cons] at hq hne' hu
  rcases List.suffix_cons_iff.1 hq with rfl | hq
  · exact hne' rfl
  obtain ⟨c, r, hr⟩ := List.exists_cons_of_ne_nil hb.ne_nil
  rcases List.suffix_cons_iff.1 hq with rfl | hq
  · -- the second brace of the other placeholder would be the first character of the body
    rw [hr] at hu
    simp only [List.cons_append, List.cons.injEq] at hu
    obtain ⟨-, rfl, -⟩ := hu
    exact hb.opening_not_mem (by rw [hr]; exact List.mem_cons_self)
  · obtain ⟨d, w, rfl⟩ := List.exists_cons_of_ne_nil hne
    simp only [List.cons_append, List.cons.injEq] at hu
    obtain ⟨rfl, -⟩ := hu
    have hmem : '\x7b' ∈ body ++ ['\x7d', '\x7d'] := hq.subset List.mem_cons_self
    rw [List.mem_append] at hmem
    rcases hmem with hmem | hmem
    · exact hb.opening_not_mem hmem
    · exact absurd hmem (by decide)

/-- A written placeholder does not overlap itself. -/
theorem unbordered_wrap {body : List Char} (hb : IsBody body) : Text.Unbordered (wrap body) := by
  intro q hprefix hsuffix
  by_cases hne : q = []
  · exact Or.inl hne
  by_cases heq : q = wrap body
  · exact Or.inr heq
  obtain ⟨t, ht⟩ := hprefix
  have hno : ¬ wrap body <+: q ++ t := not_wrap_prefix_of_suffix hb hne hsuffix heq
  exact absurd ⟨[], by rw [ht, List.append_nil]⟩ hno

/-- Where a text starts with one placeholder and another one is written in it, the other one is the
first one or lies behind it.

**Proof sketch.** Otherwise the other one starts behind the first brace of the first one, which
`not_wrap_prefix_of_suffix` excludes. -/
theorem eq_nil_or_eq_wrap_append {body other rest before after : List Char} (hb : IsBody body)
    (ho : IsBody other) (h : wrap body ++ rest = before ++ (wrap other ++ after)) :
    before = [] ∧ other = body
      ∨ ∃ between, before = wrap body ++ between ∧ rest = between ++ (wrap other ++ after) := by
  rcases List.append_eq_append_iff.1 h with ⟨between, hbefore, hrest⟩ | ⟨q, hq, hwrap⟩
  · exact Or.inr ⟨between, hbefore, hrest⟩
  · by_cases hnil : q = []
    · rw [hnil, List.append_nil] at hq
      rw [hnil, List.nil_append] at hwrap
      exact Or.inr ⟨[], by rw [hq, List.append_nil], by rw [hwrap, List.nil_append]⟩
    · by_cases hwhole : q = wrap body
      · have hbefore : before = [] := List.append_left_eq_self.1 (hwhole ▸ hq).symm
        have hsome : hole? (wrap body ++ rest) = some (other, after) :=
          hole?_eq_some_iff.2 ⟨ho, by rw [hwhole] at hwrap; exact hwrap.symm⟩
        rw [hole?_eq_some_iff.2 ⟨hb, rfl⟩] at hsome
        exact Or.inl ⟨hbefore, (Prod.mk.inj (Option.some.inj hsome)).1.symm⟩
      · exact absurd ⟨after, hwrap⟩ (not_wrap_prefix_of_suffix hb hnil ⟨before, hq.symm⟩ hwhole)

/-! ## The scan -/

/-- A placeholder at the start is the first segment. -/
theorem segments_wrap {body : List Char} (hb : IsBody body) (rest : List Char) :
    segments (wrap body ++ rest)
      = ⟨⟨[], body⟩ :: (segments rest).holes, (segments rest).tail⟩ := by
  have h : hole? (wrap body ++ rest) = some (body, rest) := hole?_eq_some_iff.2 ⟨hb, rfl⟩
  rw [wrap_eq_cons, List.cons_append] at h ⊢
  rw [segments]
  split
  · next heq =>
    rw [h] at heq
    cases heq
    rfl
  · next heq => rw [h] at heq; cases heq

/-- Where no placeholder starts, the first character is literal. -/
theorem segments_cons {c : Char} {r : List Char} (h : hole? (c :: r) = none) :
    segments (c :: r) = (segments r).push c := by
  rw [segments]
  split
  · next heq => rw [h] at heq; cases heq
  · rfl

namespace Segments

/-- The literal texts from left to right: one in front of every placeholder, and the tail. -/
def literals (t : Segments) : List (List Char) := t.holes.map Hole.before ++ [t.tail]

/-- More literal text in front. -/
def prepend (l : List Char) : Segments → Segments
  | ⟨[], tail⟩ => ⟨[], l ++ tail⟩
  | ⟨h :: holes, tail⟩ => ⟨⟨l ++ h.before, h.body⟩ :: holes, tail⟩

/-- Placeholders in literal text without opening braces. -/
structure Plain (t : Segments) : Prop where
  opening_not_mem : ∀ l ∈ t.literals, '\x7b' ∉ l
  isBody : ∀ b ∈ t.bodies, IsBody b

@[simp] theorem bodies_prepend (l : List Char) (t : Segments) :
    (prepend l t).bodies = t.bodies := by
  obtain ⟨_ | ⟨h, holes⟩, tail⟩ := t <;> rfl

@[simp] theorem text_prepend (l : List Char) (t : Segments) :
    (prepend l t).text = l ++ t.text := by
  obtain ⟨_ | ⟨h, holes⟩, tail⟩ := t <;> simp [prepend, text]

@[simp] theorem prepend_nil (t : Segments) : prepend [] t = t := by
  obtain ⟨_ | ⟨h, holes⟩, tail⟩ := t <;> rfl

/-- Literal text is put in front character by character. -/
theorem prepend_cons (c : Char) (l : List Char) (t : Segments) :
    prepend (c :: l) t = push c (prepend l t) := by
  obtain ⟨_ | ⟨h, holes⟩, tail⟩ := t <;> rfl

/-- Every literal text of the result is one that was there or the new one in front of one. -/
theorem opening_not_mem_prepend {l : List Char} {t : Segments} (hl : '\x7b' ∉ l)
    (ht : ∀ m ∈ t.literals, '\x7b' ∉ m) : ∀ m ∈ (prepend l t).literals, '\x7b' ∉ m := by
  obtain ⟨_ | ⟨h, holes⟩, tail⟩ := t <;> simp_all [prepend, literals]

end Segments

open Segments

/-- Literal text in front of a template moves its occurrences. -/
theorem occurrences_prepend (start : Nat) (l : List Char) (t : Segments) :
    occurrences start (prepend l t).holes = occurrences (start + Text.byteSize l) t.holes := by
  obtain ⟨_ | ⟨h, holes⟩, tail⟩ := t
  · rfl
  · simp only [prepend, occurrences, Text.byteSize_append, Nat.add_assoc]

/-- The bodies of the occurrences are those of the holes. -/
theorem map_body_occurrences (start : Nat) (holes : List Hole) :
    (occurrences start holes).map Occurrence.body = holes.map Hole.body := by
  induction holes generalizing start with
  | nil => rfl
  | cons h rest ih => rw [occurrences, List.map_cons, ih, List.map_cons]

/-- A placeholder at the start is the first occurrence. -/
theorem occurrences_segments_wrap {body : List Char} (hb : IsBody body) (start : Nat)
    (rest : List Char) :
    occurrences start (segments (wrap body ++ rest)).holes
      = ⟨body, start⟩ :: occurrences (start + Text.byteSize (wrap body)) (segments rest).holes := by
  rw [segments_wrap hb, occurrences]
  rfl

/-- Where no placeholder starts, the first character moves the occurrences. -/
theorem occurrences_segments_cons {c : Char} {r : List Char} (h : hole? (c :: r) = none)
    (start : Nat) : occurrences start (segments (c :: r)).holes
      = occurrences (start + Text.byteSize [c]) (segments r).holes := by
  rw [segments_cons h, ← occurrences_prepend, prepend_cons, prepend_nil]

/-- **A scan reports the placeholders that are written in a template, each in its place, and nothing
else.**

**Proof sketch.** By the scan. Behind a placeholder that the scan takes, `eq_nil_or_eq_wrap_append`
leaves any other one whole; and a character is literal only where no placeholder starts. -/
theorem mem_occurrences_segments_iff {s : List Char} {start : Nat} {o : Occurrence} :
    o ∈ occurrences start (segments s).holes ↔ IsBody o.body ∧
      ∃ before after, s = before ++ (wrap o.body ++ after)
        ∧ start + Text.byteSize before = o.start := by
  induction s using segments.induct generalizing start with
  | case1 =>
    simp only [segments, occurrences, List.not_mem_nil, false_iff]
    rintro ⟨-, before, after, h, -⟩
    simp [wrap_eq_cons] at h
  | case2 c r body rest hhole ih =>
    obtain ⟨hbody, hs⟩ := hole?_eq_some_iff.1 hhole
    rw [hs, occurrences_segments_wrap hbody, List.mem_cons, ih]
    constructor
    · rintro (rfl | ⟨ho, before, after, hrest, hstart⟩)
      · exact ⟨hbody, [], rest, rfl, rfl⟩
      · refine ⟨ho, wrap body ++ before, after, by rw [hrest, List.append_assoc], ?_⟩
        rw [← hstart, Text.byteSize_append, ← Nat.add_assoc]
    · rintro ⟨ho, before, after, hsplit, hstart⟩
      rcases eq_nil_or_eq_wrap_append hbody ho hsplit with ⟨rfl, hsame⟩ | ⟨between, rfl, hrest⟩
      · obtain ⟨body', start'⟩ := o
        cases hsame
        cases hstart
        exact Or.inl rfl
      · refine Or.inr ⟨ho, between, after, hrest, ?_⟩
        rw [← hstart, Text.byteSize_append, ← Nat.add_assoc]
  | case3 c r hnone ih =>
    rw [occurrences_segments_cons hnone, ih]
    refine and_congr_right fun ho => ?_
    constructor
    · rintro ⟨before, after, rfl, hstart⟩
      refine ⟨c :: before, after, rfl, ?_⟩
      rw [← hstart, Nat.add_assoc, ← Text.byteSize_append]
      rfl
    · rintro ⟨before, after, hsplit, hstart⟩
      cases before with
      | nil =>
        rw [List.nil_append] at hsplit
        rw [hole?_eq_some_iff.2 ⟨ho, hsplit⟩] at hnone
        cases hnone
      | cons d before =>
        cases hsplit
        refine ⟨before, after, rfl, ?_⟩
        rw [← hstart, Nat.add_assoc, ← Text.byteSize_append]
        rfl

/-- Every placeholder that is written in a template is reported. -/
theorem mem_bodies_segments_of_infix {s b : List Char} (hb : IsBody b) (h : wrap b <:+: s) :
    b ∈ (segments s).bodies := by
  obtain ⟨before, after, h⟩ := h
  have hmem : (⟨b, 0 + Text.byteSize before⟩ : Occurrence) ∈ occurrences 0 (segments s).holes :=
    mem_occurrences_segments_iff.2 ⟨hb, before, after, by rw [← h, List.append_assoc], rfl⟩
  have hbody := List.mem_map_of_mem (f := Occurrence.body) hmem
  rwa [map_body_occurrences] at hbody

/-- Every body that a scan reports is one. -/
theorem isBody_of_mem_bodies {s b : List Char} (h : b ∈ (segments s).bodies) : IsBody b := by
  rw [bodies, ← map_body_occurrences 0] at h
  obtain ⟨o, ho, rfl⟩ := List.mem_map.1 h
  exact (mem_occurrences_segments_iff.1 ho).1

/-- Literal text without opening braces is scanned to itself. -/
theorem segments_append {l : List Char} (hl : '\x7b' ∉ l) (s : List Char) :
    segments (l ++ s) = prepend l (segments s) := by
  induction l with
  | nil => rw [List.nil_append, prepend_nil]
  | cons c r ih =>
    rw [List.mem_cons, not_or] at hl
    rw [List.cons_append, segments_cons (hole?_cons_eq_none (Ne.symm hl.1) _), ih hl.2,
      prepend_cons]

/-- **Plain segments are found again in their text.** -/
theorem segments_text_of_plain {t : Segments} (ht : t.Plain) : segments t.text = t := by
  obtain ⟨holes, tail⟩ := t
  induction holes with
  | nil =>
    have htail : '\x7b' ∉ tail := ht.opening_not_mem tail (by simp [literals])
    calc segments tail = prepend tail (segments []) := by
          rw [← segments_append htail, List.append_nil]
      _ = ⟨[], tail⟩ := by simp [segments, prepend]
  | cons h holes ih =>
    have hrest : Plain ⟨holes, tail⟩ :=
      ⟨fun l hl => ht.opening_not_mem l (List.mem_cons_of_mem _ hl),
        fun b hb => ht.isBody b (List.mem_cons_of_mem _ hb)⟩
    have hbefore : '\x7b' ∉ h.before := ht.opening_not_mem _ List.mem_cons_self
    have hbody : IsBody h.body := ht.isBody _ List.mem_cons_self
    have htext : text ⟨h :: holes, tail⟩ = h.before ++ (wrap h.body ++ text ⟨holes, tail⟩) := by
      simp [text]
    rw [htext, segments_append hbefore, segments_wrap hbody, ih hrest]
    simp [prepend]

end Stencil.Template
