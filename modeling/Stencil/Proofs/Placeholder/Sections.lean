import Mathlib.Data.List.Infix
import Stencil.Proofs.Placeholder.TagNames
import Stencil.Proofs.Text.Occurrence

/-!
# Sections of a body

A body has a section of alternatives and, behind the first `?:`, a section with the fallback. Bars
part the alternatives. Reading a body is reading its sections. A body is refused for a name that
some part writes as a tag and that is none; of several such names, for the first one of the
fallback, or else for the first one of the alternatives.

## Main definitions

* `Stencil.Placeholder.Sections` — the alternatives and the fallback of a body.
* `Stencil.Placeholder.Part` — the parts of a body that write tags.
* `Stencil.Placeholder.FirstUnknown` — the first name on a list that is none of a tag.
* `Stencil.Placeholder.Refused` — the name for which a body is refused.

## Main results

* `Stencil.Placeholder.sections_iff` — cutting a body finds its sections.
* `Stencil.Placeholder.Sections.parse_eq_ok_iff` — reading a body is reading its sections.
* `Stencil.Placeholder.not_mark_infix_append` — where a mark can lie in two texts together.
* `Stencil.Placeholder.parse_eq_error_iff` — which bodies are refused, and for which name.
-/

set_option autoImplicit false

namespace Stencil.Placeholder

variable {body clauses : List Char} {fallback : Option (List Char)}

/-! ## Sections -/

/-- What stands between the alternatives and the fallback. -/
def mark : List Char := ['?', ':']

/-- The sections of a body: the text in front of the first mark and the text behind it, or the whole
body where there is no mark. A mark does not overlap itself, so it is the first one when there is
none in the text in front. -/
inductive Sections (body : List Char) : List Char → Option (List Char) → Prop where
  /-- There is no fallback. -/
  | alone (h : ¬ mark <:+: body) : Sections body body none
  /-- The fallback stands behind the first mark. -/
  | marked {clauses fallback : List Char} (hbody : body = clauses ++ (mark ++ fallback))
      (hfirst : ¬ mark <:+: clauses) : Sections body clauses (some fallback)

/-- The mark does not overlap itself. -/
theorem unbordered_mark : Text.Unbordered mark := by
  intro q hprefix hsuffix
  rcases List.prefix_cons_iff.1 hprefix with rfl | ⟨r, rfl, hr⟩
  · exact Or.inl rfl
  · rcases List.prefix_cons_iff.1 hr with rfl | ⟨t, rfl, ht⟩
    · exact absurd hsuffix (by decide)
    · exact Or.inr (by rw [List.prefix_nil.1 ht, mark])

/-- Cutting a body finds its sections. -/
theorem sections_iff :
    Sections body clauses fallback ↔ splitFallback body = (clauses, fallback) := by
  have hcut {clauses fallback : List Char} : Text.cut? mark body = some (clauses, fallback) ↔
      body = clauses ++ (mark ++ fallback) ∧ ¬ mark <:+: clauses :=
    Text.cut?_eq_some_iff unbordered_mark (List.cons_ne_nil '?' [':'])
  constructor
  · rintro (h | ⟨hbody, hfirst⟩)
    · rw [splitFallback, ← mark, Text.cut?_eq_none_iff.2 h]
    · rw [splitFallback, ← mark, hcut.2 ⟨hbody, hfirst⟩]
  · intro h
    rw [splitFallback, ← mark] at h
    split at h
    · next before after heq =>
      cases h
      obtain ⟨hbody, hfirst⟩ := hcut.1 heq
      exact .marked hbody hfirst
    · next heq =>
      cases h
      exact .alone (Text.cut?_eq_none_iff.1 heq)

/-- Every body has its sections. -/
theorem exists_sections (body : List Char) :
    ∃ clauses fallback, Sections body clauses fallback :=
  ⟨_, _, sections_iff.2 rfl⟩

/-- A body has its sections in one way only. -/
theorem Sections.unique {clauses' : List Char} {fallback' : Option (List Char)}
    (h : Sections body clauses fallback) (h' : Sections body clauses' fallback') :
    clauses = clauses' ∧ fallback = fallback' := by
  rw [← Prod.mk.injEq, ← sections_iff.1 h, sections_iff.1 h']

/-- There is no mark among the alternatives. -/
theorem Sections.not_mark_infix (h : Sections body clauses fallback) : ¬ mark <:+: clauses := by
  cases h with
  | alone hnone => exact hnone
  | marked _ hfirst => exact hfirst

/-- A body is read as the placeholder that its sections are read as. -/
theorem Sections.parse_eq_ok_iff (h : Sections body clauses fallback) {p : Placeholder} :
    parse body = .ok p ↔ fallback.mapM Fallback.parse = .ok p.fallback
      ∧ (clauses.splitOn '|').mapM Clause.parse = .ok p.clauses := by
  simp only [parse_eq, sections_iff.1 h, bind_eq_ok_iff]
  constructor
  · rintro ⟨f, hf, cs, hcs, hp⟩
    cases hp
    exact ⟨hf, hcs⟩
  · rintro ⟨hf, hcs⟩
    exact ⟨p.fallback, hf, p.clauses, hcs, rfl⟩

/-- A part of a body that writes tags: the fallback, or one of the alternatives. -/
inductive Part (body : List Char) : List Char → Prop where
  | fallback {clauses part : List Char} (h : Sections body clauses (some part)) : Part body part
  | clause {clauses part : List Char} {fallback : Option (List Char)}
      (h : Sections body clauses fallback) (hpart : part ∈ clauses.splitOn '|') : Part body part

/-! ## Marks and bars -/

section

variable {s t : List Char}

/-- A text without question marks holds no mark. -/
theorem not_mark_infix_of_not_mem (h : '?' ∉ s) : ¬ mark <:+: s := fun hmark =>
  h (hmark.subset List.mem_cons_self)

/-- Two texts together hold no mark when neither does and no mark lies across. -/
theorem not_mark_infix_append (hs : ¬ mark <:+: s) (ht : ¬ mark <:+: t)
    (hgap : s.getLast? = some '?' → t.head? ≠ some ':') : ¬ mark <:+: s ++ t := by
  rintro ⟨x, y, h⟩
  rw [List.append_assoc] at h
  rcases List.append_eq_append_iff.1 h with ⟨q, hsq, hq⟩ | ⟨q, -, htq⟩
  · -- the text is `s = x ++ q`, and the mark begins with `q`
    rw [mark, List.cons_append, List.cons_append, List.nil_append] at hq
    match q, hq with
    | [], hq => exact ht ⟨[], y, hq⟩
    | [a], hq =>
      cases hq
      exact hgap (by rw [hsq, List.getLast?_concat]) rfl
    | a :: b :: q, hq =>
      cases hq
      exact hs ⟨x, q, by rw [hsq, List.append_assoc]; rfl⟩
  · exact ht ⟨q, y, by rw [htq, List.append_assoc]⟩

/-- Bars lie across no mark. -/
theorem not_mark_infix_intercalate {parts : List (List Char)}
    (h : ∀ part ∈ parts, ¬ mark <:+: part) : ¬ mark <:+: List.intercalate ['|'] parts := by
  induction parts with
  | nil =>
    rw [List.intercalate_nil]
    exact not_mark_infix_of_not_mem List.not_mem_nil
  | cons part parts ih =>
    rw [List.forall_mem_cons] at h
    cases parts with
    | nil =>
      rw [List.intercalate_singleton]
      exact h.1
    | cons next parts =>
      have hbar : ¬ mark <:+: part ++ ['|'] :=
        not_mark_infix_append h.1 (not_mark_infix_of_not_mem (by decide)) fun _ => by decide
      rw [List.intercalate_cons_cons]
      refine not_mark_infix_append hbar (ih h.2) fun hlast => ?_
      rw [List.getLast?_concat] at hlast
      cases hlast

end

/-! ## The refused name -/

/-- The name is the first one on the list that is none of a tag. -/
def FirstUnknown (names : List (List Char)) (name : List Char) : Prop :=
  ∃ before after, names = before ++ name :: after ∧ (∀ n ∈ before, Tag.Named Tag.all n)
    ∧ ¬ Tag.Named Tag.all name

/-- The name for which a body is refused: the first unknown one of the fallback, or else the first
unknown one of the alternatives. -/
inductive Refused (body : List Char) : List Char → Prop where
  | fallback {clauses part name : List Char} (h : Sections body clauses (some part))
      (hfirst : FirstUnknown (tagNames part) name) : Refused body name
  | clause {clauses name : List Char} {fallback : Option (List Char)}
      (h : Sections body clauses fallback)
      (hknown : ∀ part ∈ fallback, ∀ n ∈ tagNames part, Tag.Named Tag.all n)
      (hfirst : FirstUnknown ((clauses.splitOn '|').flatMap tagNames) name) : Refused body name

/-- Looking names up fails as the first unknown one. -/
theorem findSome?_failure?_parseTag_iff {names : List (List Char)} {e : RenderError} :
    names.findSome? (fun n => failure? (parseTag n)) = some e
      ↔ ∃ name, FirstUnknown names name ∧ e = .unknownTag (String.ofList name) := by
  rw [findSome?_failure?_parseTag_eq_some_iff]
  constructor
  · rintro ⟨before, name, after, hnames, hbefore, hname, he⟩
    exact ⟨name, ⟨before, after, hnames, hbefore, hname⟩, he⟩
  · rintro ⟨name, ⟨before, after, hnames, hbefore, hname⟩, he⟩
    exact ⟨before, name, after, hnames, hbefore, hname, he⟩

/-- The names that the alternatives write. -/
theorem Sections.clauseNames_eq (h : Sections body clauses fallback) :
    clauseNames body = (clauses.splitOn '|').flatMap tagNames := by
  rw [clauseNames, sections_iff.1 h]

/-- The names that the fallback writes. -/
theorem Sections.fallbackNames_eq (h : Sections body clauses fallback) :
    fallbackNames body = fallback.elim [] tagNames := by
  rw [fallbackNames, sections_iff.1 h]
  cases fallback <;> rfl

/-- The written names are those of the parts. -/
theorem mem_writtenNames_iff {name : List Char} :
    name ∈ writtenNames body ↔ ∃ part, Part body part ∧ name ∈ tagNames part := by
  obtain ⟨clauses, fallback, h⟩ := exists_sections body
  rw [writtenNames, List.mem_append, h.clauseNames_eq, h.fallbackNames_eq, List.mem_flatMap]
  constructor
  · rintro (⟨part, hpart, hname⟩ | hname)
    · exact ⟨part, .clause h hpart, hname⟩
    · cases fallback with
      | none => cases hname
      | some part => exact ⟨part, .fallback h, hname⟩
  · rintro ⟨part, hpart, hname⟩
    cases hpart with
    | fallback h' =>
      obtain ⟨rfl, rfl⟩ := h.unique h'
      exact Or.inr hname
    | clause h' hmem =>
      obtain ⟨rfl, rfl⟩ := h.unique h'
      exact Or.inl ⟨part, hmem, hname⟩

/-- The refused name is the first unknown one of the fallback, or else of the alternatives. -/
theorem refused_iff {name : List Char} : Refused body name ↔
    FirstUnknown (fallbackNames body) name ∨
      (∀ n ∈ fallbackNames body, Tag.Named Tag.all n) ∧ FirstUnknown (clauseNames body) name := by
  obtain ⟨clauses, fallback, h⟩ := exists_sections body
  rw [h.clauseNames_eq, h.fallbackNames_eq]
  constructor
  · intro hrefused
    cases hrefused with
    | fallback h' hfirst =>
      obtain ⟨rfl, rfl⟩ := h.unique h'
      exact Or.inl hfirst
    | clause h' hknown hfirst =>
      obtain ⟨rfl, rfl⟩ := h.unique h'
      refine Or.inr ⟨?_, hfirst⟩
      cases fallback with
      | none => exact fun n hn => absurd hn List.not_mem_nil
      | some part => exact hknown part rfl
  · rintro (hfirst | ⟨hknown, hfirst⟩)
    · cases fallback with
      | none =>
        obtain ⟨before, after, hnil, -⟩ := hfirst
        exact absurd hnil.symm (List.append_ne_nil_of_right_ne_nil before (List.cons_ne_nil _ _))
      | some part => exact .fallback h hfirst
    · refine .clause h ?_ hfirst
      rintro part rfl
      exact hknown

/-- Reading fails exactly when an unknown name is written. -/
theorem exists_parse_eq_error_iff : (∃ e, parse body = .error e) ↔
    ∃ name ∈ writtenNames body, ¬ Tag.Named Tag.all name := by
  have hfails : (∃ e, parse body = .error e) ↔ ¬ ∃ p, parse body = .ok p := by
    cases parse body <;> simp
  rw [hfails, exists_parse_eq_ok_iff]
  simp only [not_forall, exists_prop]

/-- **Which bodies are refused.** Reading a body fails exactly when some part writes a name that is
none of a tag, and it fails as an unknown tag with the first such name of the fallback, or else the
first such name of the alternatives.

**Proof sketch.** All names of the fallback are looked up before those of the alternatives, and a
look-up fails as the first name that is none of a tag. -/
theorem parse_eq_error_iff (body : List Char) :
    ((∃ e, parse body = .error e)
      ↔ ∃ part, Part body part ∧ ∃ name ∈ tagNames part, ¬ Tag.Named Tag.all name)
      ∧ ∀ e, parse body = .error e
        ↔ ∃ name, Refused body name ∧ e = .unknownTag (String.ofList name) := by
  constructor
  · rw [exists_parse_eq_error_iff]
    simp only [mem_writtenNames_iff]
    constructor
    · rintro ⟨name, ⟨part, hpart, hmem⟩, hname⟩
      exact ⟨part, hpart, name, hmem, hname⟩
    · rintro ⟨part, hpart, name, hmem, hname⟩
      exact ⟨name, ⟨part, hpart, hmem⟩, hname⟩
  · intro e
    -- the look-ups in their order: those of the fallback come first
    rw [← failure?_eq_some_iff, failure?_parse, List.findSome?_append, Option.or_eq_some_iff,
      findSome?_failure?_parseTag_iff, findSome?_failure?_parseTag_iff,
      List.findSome?_eq_none_iff]
    simp only [failure?_parseTag_eq_none_iff, refused_iff]
    constructor
    · rintro (⟨name, hfirst, he⟩ | ⟨hknown, name, hfirst, he⟩)
      · exact ⟨name, Or.inl hfirst, he⟩
      · exact ⟨name, Or.inr ⟨hknown, hfirst⟩, he⟩
    · rintro ⟨name, hfirst | ⟨hknown, hfirst⟩, he⟩
      · exact Or.inl ⟨name, hfirst, he⟩
      · exact Or.inr ⟨hknown, name, hfirst, he⟩

/-- The fallback is written last, and its names are looked up first. -/
example : failure? (parse "a:x?:b:y".toList) = some (.unknownTag "y") := by decide +kernel

end Stencil.Placeholder
