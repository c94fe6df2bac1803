import Stencil.Text.Basic

/-!
# First occurrences of a pattern

Where a search for a pattern stops. A pattern that cannot overlap itself is found exactly where it
was put, unless the text in front of that place holds it already.

## Main definitions

* `Stencil.Text.Unbordered` — a text of which no proper beginning is also an end.

## Main results

* `Stencil.Text.cut?_append`, `Stencil.Text.cut?_eq_some_iff` — where an unbordered pattern is
  found.
* `Stencil.Text.cut?_eq_none_iff`, `Stencil.Text.contains_iff` — which patterns are found nowhere,
  and which are found.
* `Stencil.Text.infix_append_iff` — where two texts meet, a pattern is not found.
* `Stencil.Text.replaceFirst_append` — replacing it there.
* `Stencil.Text.replaceFirst_self` — replacing a pattern by itself changes nothing.
-/

set_option autoImplicit false

namespace Stencil.Text

/-- No beginning of the text, except for the empty one and the text itself, is also an end of it:
two occurrences of the text never overlap. -/
def Unbordered (p : List Char) : Prop := ∀ q, q <+: p → q <:+ p → q = [] ∨ q = p

/-- An unbordered pattern does not start inside a text that does not hold it, even when the pattern
itself follows that text.

**Proof sketch.** Such a start either lies in the text as a whole, or it runs over the end of the
text. In the second case the part behind the end is an end of the pattern, and a beginning of the
pattern that follows. -/
theorem dropStart?_append_eq_none {p s : List Char} (hp : Unbordered p) (hs : ¬ p <:+: s)
    (hne : s ≠ []) (t : List Char) : dropStart? p (s ++ (p ++ t)) = none := by
  rw [Option.eq_none_iff_forall_ne_some]
  intro after h
  rw [dropStart?_eq_some_iff] at h
  rcases List.append_eq_append_iff.1 h with ⟨q, hpq, hq⟩ | ⟨q, hsq, -⟩
  · have hsuffix : q <:+ p := ⟨s, hpq.symm⟩
    have hprefix : q <+: p :=
      List.prefix_of_prefix_length_le ⟨after, hq.symm⟩ (List.prefix_append p t) hsuffix.length_le
    rcases hp q hprefix hsuffix with rfl | rfl
    · rw [List.append_nil] at hpq
      exact hs ⟨[], [], by rw [List.nil_append, List.append_nil, hpq]⟩
    · have hlength := congrArg List.length hpq
      rw [List.length_append] at hlength
      exact hne (List.eq_nil_of_length_eq_zero (by omega))
  · exact hs ⟨[], q, by rw [List.nil_append, hsq]⟩

/-- An unbordered pattern is found where it was put, when the text in front does not hold it. -/
theorem cut?_append {p s : List Char} (hp : Unbordered p) (hs : ¬ p <:+: s) (t : List Char) :
    cut? p (s ++ (p ++ t)) = some (s, t) := by
  induction s with
  | nil =>
    have hstart : dropStart? p (p ++ t) = some t := dropStart?_eq_some_iff.2 rfl
    cases p with
    | nil => exact absurd List.infix_rfl hs
    | cons c r =>
      rw [List.cons_append] at hstart
      rw [List.nil_append, List.cons_append, cut?, hstart]
  | cons c r ih =>
    have hnone := dropStart?_append_eq_none hp hs (List.cons_ne_nil c r) t
    have hrest : ¬ p <:+: r := fun h => hs (h.trans (List.suffix_cons c r).isInfix)
    rw [List.cons_append] at hnone
    rw [List.cons_append, cut?, hnone, ih hrest]
    rfl

/-- A pattern is found nowhere exactly when the text does not hold it. -/
theorem cut?_eq_none_iff {p s : List Char} : cut? p s = none ↔ ¬ p <:+: s := by
  induction s with
  | nil => simp [cut?]
  | cons c r ih =>
    have hstart : (∃ t, dropStart? p (c :: r) = some t) ↔ p <+: c :: r :=
      exists_congr fun t => dropStart?_eq_some_iff.trans eq_comm
    rw [cut?, List.infix_cons_iff, not_or, ← ih, ← hstart]
    cases dropStart? p (c :: r) <;> simp

/-- A text contains the patterns that it holds. -/
theorem contains_iff {p s : List Char} : contains p s = true ↔ p <:+: s := by
  rw [contains, Option.isSome_iff_ne_none, Ne, cut?_eq_none_iff, Decidable.not_not]

/-- The text in front of the first place of a pattern does not hold it. -/
theorem not_infix_of_cut?_eq_some {p s before after : List Char} (hp : p ≠ [])
    (h : cut? p s = some (before, after)) : ¬ p <:+: before := by
  induction s generalizing before with
  | nil =>
    rw [cut?, if_neg hp] at h
    cases h
  | cons c r ih =>
    have hs := eq_append_of_cut?_eq_some h
    rw [cut?] at h
    split at h
    · cases h
      rwa [List.infix_nil]
    · next hstart =>
      obtain ⟨⟨before', after'⟩, hcut, heq⟩ := Option.map_eq_some_iff.1 h
      cases heq
      rw [List.infix_cons_iff, not_or]
      refine ⟨?_, ih hcut⟩
      rintro ⟨t, ht⟩
      rw [hs, ← ht, List.append_assoc, dropStart?_eq_some_iff.2 rfl] at hstart
      cases hstart

/-- An unbordered pattern is found where the text in front does not hold it. -/
theorem cut?_eq_some_iff {p s before after : List Char} (hp : Unbordered p) (hne : p ≠ []) :
    cut? p s = some (before, after) ↔ s = before ++ (p ++ after) ∧ ¬ p <:+: before := by
  constructor
  · intro h
    exact ⟨eq_append_of_cut?_eq_some h, not_infix_of_cut?_eq_some hne h⟩
  · rintro ⟨rfl, hbefore⟩
    exact cut?_append hp hbefore after

/-- Characters that do not begin the pattern do not count in front of a text. -/
theorem infix_append_of_not_mem {a : Char} {p front : List Char} (h : a ∉ front) (s : List Char) :
    a :: p <:+: front ++ s ↔ a :: p <:+: s := by
  induction front with
  | nil => rw [List.nil_append]
  | cons c r ih =>
    rw [List.mem_cons, not_or] at h
    rw [List.cons_append, List.infix_cons_iff, List.cons_prefix_cons, ih h.2]
    exact or_iff_right fun hstart => h.1 hstart.1

/-- A pattern of three characters is not found where two texts meet, when the first one does not
end and the second one does not begin with the character in the middle. -/
theorem infix_append_iff {a b c : Char} {s t : List Char} (hs : s.getLast? ≠ some b)
    (ht : t.head? ≠ some b) : [a, b, c] <:+: s ++ t ↔ [a, b, c] <:+: s ∨ [a, b, c] <:+: t := by
  induction s with
  | nil => simp
  | cons d r ih =>
    have hr : r.getLast? ≠ some b := by
      rcases r with - | ⟨e, r⟩
      · simp
      · rwa [List.getLast?_cons_cons] at hs
    have hstart : [a, b, c] <+: d :: (r ++ t) ↔ [a, b, c] <+: d :: r := by
      rcases r with - | ⟨e, - | ⟨f, r⟩⟩
      · rcases t with - | ⟨e, t⟩
        · simp
        · have hne : b ≠ e := fun h => ht (by rw [h, List.head?_cons])
          simp [List.cons_prefix_cons, hne]
      · have hne : b ≠ e := fun h => hs (by rw [h]; rfl)
        simp [List.cons_prefix_cons, hne]
      · simp [List.cons_prefix_cons]
    rw [List.cons_append, List.infix_cons_iff, List.infix_cons_iff, hstart, ih hr, or_assoc]

/-- An unbordered pattern is replaced where it was put, when the text in front does not hold it. -/
theorem replaceFirst_append {p s : List Char} (hp : Unbordered p) (hs : ¬ p <:+: s)
    (new t : List Char) : replaceFirst p new (s ++ (p ++ t)) = s ++ (new ++ t) := by
  rw [replaceFirst, cut?_append hp hs]

/-- Replacing a pattern by itself changes nothing, wherever it is found. -/
theorem replaceFirst_self (p s : List Char) : replaceFirst p p s = s := by
  unfold replaceFirst
  split
  · next before after h => exact (eq_append_of_cut?_eq_some h).symm
  · rfl

end Stencil.Text
