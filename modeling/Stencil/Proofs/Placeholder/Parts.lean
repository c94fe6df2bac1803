import Stencil.Proofs.Placeholder.TagNames
import Stencil.Proofs.Text.Trim

/-!
# Parts and their tags

A part of a placeholder is cut in front of the colon that opens its tags. The text in front is one
none of whose colons opens tags, and any such text may stand there; blanks around it open none.

## Main definitions

* `Stencil.Placeholder.Untagged` — no colon of the text opens tags.

## Main results

* `Stencil.Placeholder.splitTags_append`, `Stencil.Placeholder.splitTags_of_untagged` — where a part
  is cut; `Stencil.Placeholder.untagged_or_exists_append`, that there are no other parts.
* `Stencil.Placeholder.untagged_blank_append_iff` — blanks around a text open no tags.
-/

set_option autoImplicit false

namespace Stencil.Placeholder

variable {s head tags front back : List Char}

/-! ## Texts that open no tags -/

/-- No colon of the text opens tags. -/
def Untagged (s : List Char) : Prop :=
  ∀ before behind, s = before ++ ':' :: behind → opensTags behind = false

/-- The empty text has no colon. -/
theorem untagged_nil : Untagged [] := fun before behind h => by simp at h

/-- The colons of a text are its first character, perhaps, and those of the rest. -/
theorem untagged_cons_iff {c : Char} {r : List Char} :
    Untagged (c :: r) ↔ (c = ':' → opensTags r = false) ∧ Untagged r := by
  constructor
  · intro h
    refine ⟨?_, fun before behind hr => h (c :: before) behind (by rw [hr, List.cons_append])⟩
    rintro rfl
    exact h [] r rfl
  · rintro ⟨hc, hr⟩ before behind hsplit
    cases before with
    | nil =>
      cases hsplit
      exact hc rfl
    | cons d before =>
      cases hsplit
      exact hr before behind rfl

/-- Where no colon opens tags, there are none. -/
theorem tagSection?_eq_none_iff : tagSection? s = none ↔ Untagged s := by
  induction s with
  | nil => exact iff_of_true rfl untagged_nil
  | cons c r ih =>
    rw [tagSection?, untagged_cons_iff, ← ih]
    by_cases hc : c = ':' ∧ opensTags r = true
    · simp [hc]
    · rw [if_neg hc]
      simp only [not_and, Bool.not_eq_true] at hc
      exact (and_iff_right hc).symm

instance instDecidableUntagged (s : List Char) : Decidable (Untagged s) :=
  decidable_of_iff (tagSection? s = none) tagSection?_eq_none_iff

/-- A text without colons reaches to its end. -/
theorem opensTags_of_not_mem (h : ':' ∉ s) : opensTags s = Tag.isWord (Text.trim s) := by
  have hhead := head?_splitOn s
  rw [List.splitOn_eq_singleton h, List.head?_cons, Option.some_inj] at hhead
  rw [opensTags, ← hhead]

/-- What stands behind the next colon does not count. -/
theorem opensTags_append_colon (s t : List Char) : opensTags (s ++ ':' :: t) = opensTags s := by
  have hhead := head?_splitOn (s ++ ':' :: t)
  rw [List.splitOn_append_cons_self, List.head?_append_of_ne_nil _ (List.splitOn_ne_nil ':' s),
    head?_splitOn, Option.some_inj] at hhead
  rw [opensTags, opensTags, ← hhead]

/-- Blanks behind a text do not count. -/
theorem opensTags_append_blank (hback : Text.Blank back) (s : List Char) :
    opensTags (s ++ back) = opensTags s := by
  by_cases h : ':' ∈ s
  · obtain ⟨before, behind, rfl⟩ := List.append_of_mem h
    rw [List.append_assoc, List.cons_append, opensTags_append_colon, opensTags_append_colon]
  · have hcolon : ':' ∉ s ++ back := by
      rw [List.mem_append, not_or]
      exact ⟨h, hback.not_mem rfl⟩
    have htrim : Text.trim (s ++ back) = Text.trim s :=
      Text.trim_append Text.blank_nil hback s
    rw [opensTags_of_not_mem hcolon, opensTags_of_not_mem h, htrim]

/-- The tags of a part begin behind the first colon that opens tags. -/
theorem tagSection?_append (hhead : Untagged head) (htags : opensTags tags = true) :
    tagSection? (head ++ ':' :: tags) = some tags := by
  induction head with
  | nil => rw [List.nil_append, tagSection?, if_pos ⟨rfl, htags⟩]
  | cons c r ih =>
    rw [untagged_cons_iff] at hhead
    have hc : ¬ (c = ':' ∧ opensTags (r ++ ':' :: tags) = true) := by
      rw [opensTags_append_colon]
      rintro ⟨rfl, hopens⟩
      rw [hhead.1 rfl] at hopens
      cases hopens
    rw [List.cons_append, tagSection?, if_neg hc, ih hhead.2]

/-- Every text opens no tags, or is cut in front of the colon that does. -/
theorem untagged_or_exists_append (s : List Char) :
    Untagged s ∨ ∃ head tags, s = head ++ ':' :: tags ∧ Untagged head ∧ opensTags tags = true := by
  induction s with
  | nil => exact Or.inl untagged_nil
  | cons c r ih =>
    by_cases hc : c = ':' ∧ opensTags r = true
    · exact Or.inr ⟨[], r, by rw [hc.1, List.nil_append], untagged_nil, hc.2⟩
    · have hclosed : c = ':' → opensTags r = false := by simpa using hc
      rcases ih with hr | ⟨head, tags, rfl, hhead, htags⟩
      · exact Or.inl (untagged_cons_iff.2 ⟨hclosed, hr⟩)
      · rw [opensTags_append_colon] at hclosed
        exact Or.inr ⟨c :: head, tags, rfl, untagged_cons_iff.2 ⟨hclosed, hhead⟩, htags⟩

/-- Blanks in front of a text open no tags. -/
theorem untagged_append_iff_of_blank_left (hfront : Text.Blank front) :
    Untagged (front ++ s) ↔ Untagged s := by
  induction front with
  | nil => rw [List.nil_append]
  | cons c r ih =>
    have hc : c ≠ ':' := by
      rintro rfl
      exact hfront.not_mem (c := ':') rfl List.mem_cons_self
    rw [List.cons_append, untagged_cons_iff, ih fun d hd => hfront d (List.mem_cons_of_mem c hd)]
    exact and_iff_right fun heq => absurd heq hc

/-- Blanks behind a text open no tags. -/
theorem untagged_append_iff_of_blank_right (hback : Text.Blank back) :
    Untagged (s ++ back) ↔ Untagged s := by
  induction s with
  | nil =>
    have hiff := untagged_append_iff_of_blank_left (s := []) hback
    rwa [List.append_nil] at hiff
  | cons c r ih => rw [List.cons_append, untagged_cons_iff, untagged_cons_iff, ih,
      opensTags_append_blank hback]

/-- Blanks around a text open no tags. -/
theorem untagged_blank_append_iff (hfront : Text.Blank front) (hback : Text.Blank back) :
    Untagged (front ++ (s ++ back)) ↔ Untagged s := by
  rw [untagged_append_iff_of_blank_left hfront, untagged_append_iff_of_blank_right hback]

/-! ## Cutting a part -/

/-- A part is cut in front of the pieces that begin with the first word. -/
theorem splitTags_fst_eq {pieces : List (List Char)}
    (hpieces : s.splitOn ':' = head.splitOn ':' ++ pieces)
    (hdrop : (s.splitOn ':').tail.dropWhile (fun piece => !Tag.isWord (Text.trim piece)) = pieces) :
    (splitTags s).1 = head := by
  obtain ⟨first, rest, hsplit⟩ := List.exists_cons_of_ne_nil (List.splitOn_ne_nil ':' head)
  rw [hsplit, List.cons_append] at hpieces
  rw [hpieces, List.tail_cons] at hdrop
  have htake : (rest ++ pieces).takeWhile (fun piece => !Tag.isWord (Text.trim piece)) = rest := by
    have happend := List.takeWhile_append_dropWhile (l := rest ++ pieces)
      (p := fun piece => !Tag.isWord (Text.trim piece))
    rwa [hdrop, List.append_cancel_right_eq] at happend
  simp only [splitTags, hpieces, htake]
  rw [← hsplit, List.intercalate_splitOn]

/-- A part in which no colon opens tags is left as it is. -/
theorem splitTags_of_untagged (h : Untagged s) : splitTags s = (s, []) := by
  have hsection := tagSection?_eq_none_iff.2 h
  have hdrop := dropWhile_tail_splitOn s
  rw [hsection] at hdrop
  refine Prod.ext (splitTags_fst_eq (List.append_nil _).symm hdrop) ?_
  rw [splitTags_snd, tagNames, hsection]

/-- A part is cut in front of the first colon that opens tags. -/
theorem splitTags_append (hhead : Untagged head) (htags : opensTags tags = true) :
    splitTags (head ++ ':' :: tags)
      = (head, ((tags.splitOn ':').map Text.trim).filter (· ≠ [])) := by
  have hsection := tagSection?_append hhead htags
  have hdrop := dropWhile_tail_splitOn (head ++ ':' :: tags)
  rw [hsection] at hdrop
  refine Prod.ext (splitTags_fst_eq (List.splitOn_append_cons_self head tags) hdrop) ?_
  rw [splitTags_snd, tagNames, hsection]

/-- The text in front of the tags of a part is a beginning of it, and opens no tags itself. -/
theorem splitTags_fst (s : List Char) : (splitTags s).1 <+: s ∧ Untagged (splitTags s).1 := by
  rcases untagged_or_exists_append s with h | ⟨head, tags, rfl, hhead, htags⟩
  · rw [splitTags_of_untagged h]
    exact ⟨List.prefix_rfl, h⟩
  · rw [splitTags_append hhead htags]
    exact ⟨List.prefix_append head _, hhead⟩

end Stencil.Placeholder
