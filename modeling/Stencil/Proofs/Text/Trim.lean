import Stencil.Text.Basic

/-!
# Trimmed texts

Trimming takes a run of blanks away at either end of a text. Blanks that are put around a text are
trimmed away with its own.

## Main definitions

* `Stencil.Text.Blank` — a text of blanks only.

## Main results

* `Stencil.Text.exists_eq_append_trim` — what trimming takes away.
* `Stencil.Text.trim_append` — blanks around a text do not count.
* `Stencil.Text.exists_trim_append` — what is no blank stays.
* `Stencil.Text.trim_trim` — a trimmed text is trimmed.
-/

set_option autoImplicit false

namespace Stencil.Text

variable {front back s : List Char}

/-- A text of blanks only. -/
def Blank (s : List Char) : Prop := ∀ c ∈ s, isBlank c = true

/-- The empty text has blanks only. -/
theorem blank_nil : Blank [] := fun _ hc => absurd hc List.not_mem_nil

/-- One blank is a text of blanks. -/
theorem blank_singleton {c : Char} (hc : isBlank c = true) : Blank [c] := fun d hd => by
  rwa [List.mem_singleton.1 hd]

/-- A character that is no blank is not among blanks. -/
theorem Blank.not_mem {c : Char} (h : Blank s) (hc : isBlank c = false) : c ∉ s := fun hmem => by
  rw [h c hmem] at hc
  cases hc

/-- A text begins with the blanks that trimming takes away there. -/
theorem exists_eq_append_trimStart (s : List Char) :
    ∃ front, Blank front ∧ s = front ++ trimStart s :=
  ⟨s.takeWhile isBlank, List.all_eq_true.1 List.all_takeWhile,
    List.takeWhile_append_dropWhile.symm⟩

/-- A text ends with the blanks that trimming takes away there. -/
theorem exists_eq_trimEnd_append (s : List Char) :
    ∃ back, Blank back ∧ s = trimEnd s ++ back := by
  obtain ⟨front, hfront, hs⟩ := exists_eq_append_trimStart s.reverse
  refine ⟨front.reverse, fun c hc => hfront c (List.mem_reverse.1 hc), ?_⟩
  have hreverse := congrArg List.reverse hs
  rwa [List.reverse_reverse, List.reverse_append] at hreverse

/-- A text is what trimming leaves, with blanks around it. -/
theorem exists_eq_append_trim (s : List Char) :
    ∃ front back, Blank front ∧ Blank back ∧ s = front ++ (trim s ++ back) := by
  obtain ⟨front, hfront, hs⟩ := exists_eq_append_trimStart s
  obtain ⟨back, hback, htrim⟩ := exists_eq_trimEnd_append (trimStart s)
  refine ⟨front, back, hfront, hback, ?_⟩
  rw [trim, ← htrim]
  exact hs

/-- What trimming leaves is a part of the text. -/
theorem trim_infix (s : List Char) : trim s <:+: s := by
  obtain ⟨front, back, -, -, hs⟩ := exists_eq_append_trim s
  exact ⟨front, back, by rw [List.append_assoc, ← hs]⟩

/-- Blanks in front of a text are trimmed away. -/
theorem trimStart_append (hfront : Blank front) (s : List Char) :
    trimStart (front ++ s) = trimStart s :=
  List.dropWhile_append_of_pos hfront

/-- Blanks behind a text are trimmed away. -/
theorem trimEnd_append (hback : Blank back) (s : List Char) : trimEnd (s ++ back) = trimEnd s := by
  rw [trimEnd, trimEnd, List.reverse_append,
    List.dropWhile_append_of_pos fun c hc => hback c (List.mem_reverse.1 hc)]

/-- Blanks around a text are trimmed away with its own.

**Proof sketch.** Blanks behind a text of blanks are trimmed away at the start, and blanks behind
any other text at the end. -/
theorem trim_append (hfront : Blank front) (hback : Blank back) (s : List Char) :
    trim (front ++ (s ++ back)) = trim s := by
  rw [trim, trim, trimStart_append hfront, trimStart, List.dropWhile_append]
  split
  · next hs =>
    have hnil : back.dropWhile isBlank = [] := by
      have hstart := trimStart_append hback []
      rwa [List.append_nil] at hstart
    rw [hnil, trimStart, List.isEmpty_iff.1 hs]
  · exact trimEnd_append hback _

/-- A text without blanks is not touched by trimming, and what follows it may lose its end. -/
theorem exists_trim_append {text : List Char} (hne : text ≠ [])
    (htext : ∀ c ∈ text, isBlank c = false) (s : List Char) :
    ∃ kept, kept <+: s ∧ trim (text ++ s) = text ++ kept := by
  obtain ⟨c, r, rfl⟩ := List.exists_cons_of_ne_nil hne
  have hc : isBlank c = false := htext c List.mem_cons_self
  have hstart : trimStart (c :: r ++ s) = c :: r ++ s := by simp [trimStart, hc]
  obtain ⟨back, hback, hsplit⟩ := exists_eq_trimEnd_append (c :: r ++ s)
  rw [trim, hstart]
  rcases List.append_eq_append_iff.1 hsplit with ⟨kept, htrim, hs⟩ | ⟨lost, htrim, hlost⟩
  · exact ⟨kept, ⟨back, hs.symm⟩, htrim⟩
  · have hnil : lost = [] := by
      refine List.eq_nil_iff_forall_not_mem.2 fun d hd => ?_
      have hblank : isBlank d = true := hback d (by simp [hlost, hd])
      rw [htext d (by rw [htrim]; simp [hd])] at hblank
      cases hblank
    rw [hnil, List.append_nil] at htrim
    exact ⟨[], List.nil_prefix, by rw [← htrim, List.append_nil]⟩

/-- A trimmed text is trimmed. -/
theorem trim_trim (s : List Char) : trim (trim s) = trim s := by
  obtain ⟨front, back, hfront, hback, hs⟩ := exists_eq_append_trim s
  have htrim := trim_append hfront hback (trim s)
  rw [← hs] at htrim
  exact htrim.symm

end Stencil.Text
