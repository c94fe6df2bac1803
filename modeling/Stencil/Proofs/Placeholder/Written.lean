import Stencil.Proofs.Placeholder.Parts
import Stencil.Proofs.Placeholder.Sections

/-!
# Written placeholders

A placeholder is written with bars between its alternatives, tags behind their paths and the
fallback behind a mark, and blanks may stand around paths and tags. Reading inverts writing, for the
placeholders whose paths and fallback can stand where they are written without being taken for
something else; and no other placeholder is ever read.

## Main definitions

* `Stencil.Clause.WellFormed`, `Stencil.Placeholder.WellFormed` — paths and fallbacks that are read
  as such.
* `Stencil.Tag.Written`, `Stencil.Clause.Written`, `Stencil.Fallback.Written`,
  `Stencil.Placeholder.Written` — the written forms.

## Main results

* `Stencil.Placeholder.wellFormed_of_parse` — what is read is well-formed.
* `Stencil.Placeholder.parse_of_written` — a written form is read back.
* `Stencil.Placeholder.parse_inverts_written` — both of them.
-/

set_option autoImplicit false

namespace Stencil

open Placeholder (mark Untagged)

/-! ## Well-formed placeholders -/

/-- A path that is read as such where it is written: it has no blanks at its ends, no bar and no
mark, and none of its colons opens tags. -/
structure Clause.WellFormed (c : Clause) : Prop where
  trim_eq : Text.trim c.path.toList = c.path.toList
  bar_not_mem : '|' ∉ c.path.toList
  mark_not_infix : ¬ mark <:+: c.path.toList
  untagged : Untagged c.path.toList

/-- A placeholder has an alternative, its paths are well-formed, and no colon of its fallback opens
tags. -/
structure Placeholder.WellFormed (p : Placeholder) : Prop where
  ne_nil : p.clauses ≠ []
  wellFormed_of_mem : ∀ c ∈ p.clauses, c.WellFormed
  untagged_literal : ∀ f ∈ p.fallback, Untagged f.literal.toList

instance Clause.instDecidableWellFormed (c : Clause) : Decidable c.WellFormed :=
  decidable_of_iff (Text.trim c.path.toList = c.path.toList ∧ '|' ∉ c.path.toList
      ∧ ¬ mark <:+: c.path.toList ∧ Untagged c.path.toList)
    ⟨fun ⟨ht, hb, hm, hu⟩ => ⟨ht, hb, hm, hu⟩, fun ⟨ht, hb, hm, hu⟩ => ⟨ht, hb, hm, hu⟩⟩

instance Placeholder.instDecidableWellFormed (p : Placeholder) : Decidable p.WellFormed :=
  decidable_of_iff (p.clauses ≠ [] ∧ (∀ c ∈ p.clauses, c.WellFormed)
      ∧ ∀ f ∈ p.fallback, Untagged f.literal.toList)
    ⟨fun ⟨hn, hc, hf⟩ => ⟨hn, hc, hf⟩, fun ⟨hn, hc, hf⟩ => ⟨hn, hc, hf⟩⟩

/-! ## Written forms -/

/-- Tags are written one behind the other, each behind a colon and with blanks around its name. -/
inductive Tag.Written : List Tag → List Char → Prop where
  | nil : Tag.Written [] []
  | cons {t : Tag} {tags : List Tag} {front back rest : List Char} (hfront : Text.Blank front)
      (hback : Text.Blank back) (hrest : Tag.Written tags rest) :
      Tag.Written (t :: tags) (':' :: (front ++ (t.name.toList ++ back) ++ rest))

/-- An alternative is written as its path with blanks around it, and its tags. There is a blank in
front of the first tag. -/
inductive Clause.Written (c : Clause) : List Char → Prop where
  | intro {front back tags : List Char} (hfront : Text.Blank front) (hback : Text.Blank back)
      (htags : Tag.Written c.tags tags) (hgap : c.tags ≠ [] → back ≠ []) :
      Clause.Written c (front ++ (c.path.toList ++ back) ++ tags)

/-- A fallback is written as it is, with its tag behind it. -/
inductive Fallback.Written (f : Fallback) : List Char → Prop where
  | intro {tag : List Char} (htag : Tag.Written f.tag.toList tag) :
      Fallback.Written f (f.literal.toList ++ tag)

/-- A placeholder is written as its alternatives with bars between them, and its fallback behind a
mark. -/
inductive Placeholder.Written (p : Placeholder) : List Char → Prop where
  | alone {parts : List (List Char)} (hfallback : p.fallback = none)
      (hclauses : List.Forall₂ Clause.Written p.clauses parts) :
      Placeholder.Written p (List.intercalate ['|'] parts)
  | marked {f : Fallback} {parts : List (List Char)} {text : List Char}
      (hfallback : p.fallback = some f) (hclauses : List.Forall₂ Clause.Written p.clauses parts)
      (htext : f.Written text) :
      Placeholder.Written p (List.intercalate ['|'] parts ++ (mark ++ text))

/-! ## Tags -/

/-- The name of a tag is a word. -/
theorem Tag.isWord_name (t : Tag) : Tag.isWord t.name.toList = true := by
  cases t <;> decide

/-- The name of a tag has no blanks around it. -/
theorem Tag.trim_name (t : Tag) : Text.trim t.name.toList = t.name.toList := by
  cases t <;> decide

/-- The name of a tag has word characters only. -/
theorem Tag.not_mem_name {c : Char} (hc : Tag.isWordChar c = false) (t : Tag) :
    c ∉ t.name.toList := fun hmem => by
  have hword := t.isWord_name
  rw [Tag.isWord, Bool.and_eq_true, List.all_eq_true] at hword
  rw [hword.2 c hmem] at hc
  cases hc

/-- A character that is no blank and no word character is not among a name and the blanks around
it. -/
theorem Tag.not_mem_append {c : Char} {front back : List Char} (hblank : Text.isBlank c = false)
    (hword : Tag.isWordChar c = false) (hfront : Text.Blank front) (hback : Text.Blank back)
    (t : Tag) : c ∉ front ++ (t.name.toList ++ back) := by
  simp only [List.mem_append, not_or]
  exact ⟨hfront.not_mem hblank, Tag.not_mem_name hword t, hback.not_mem hblank⟩

/-- A character that is no colon, no blank and no word character is not among written tags. -/
theorem Tag.Written.not_mem {tags : List Tag} {text : List Char} {c : Char}
    (h : Tag.Written tags text) (hcolon : c ≠ ':') (hblank : Text.isBlank c = false)
    (hword : Tag.isWordChar c = false) : c ∉ text := by
  induction h with
  | nil => exact List.not_mem_nil
  | @cons t tags front back rest hfront hback _ ih =>
    rw [List.mem_cons, List.mem_append, not_or, not_or]
    exact ⟨hcolon, Tag.not_mem_append hblank hword hfront hback t, ih⟩

/-- Written tags begin with a colon. -/
theorem Tag.Written.exists_eq_cons {t : Tag} {tags : List Tag} {text : List Char}
    (h : Tag.Written (t :: tags) text) : ∃ rest, text = ':' :: rest := by
  cases h
  exact ⟨_, rfl⟩

/-- Behind its first colon, a list of written tags is cut into the names. -/
theorem Tag.Written.map_trim_splitOn {t : Tag} {tags : List Tag} {text : List Char}
    (h : Tag.Written (t :: tags) (':' :: text)) :
    (text.splitOn ':').map Text.trim = (t :: tags).map fun u => u.name.toList := by
  induction tags generalizing t text with
  | nil =>
    cases h with
    | @cons _ _ front back rest hfront hback hrest =>
      cases hrest
      rw [List.append_nil, List.splitOn_eq_singleton (Tag.not_mem_append rfl rfl hfront hback t),
        List.map_singleton, Text.trim_append hfront hback, Tag.trim_name]
      rfl
  | cons u tags ih =>
    cases h with
    | @cons _ _ front back rest hfront hback hrest =>
      obtain ⟨text', rfl⟩ := hrest.exists_eq_cons
      rw [List.splitOn_append_cons_self_of_not_mem (Tag.not_mem_append rfl rfl hfront hback t),
        List.map_cons, Text.trim_append hfront hback, Tag.trim_name, ih hrest]
      rfl

/-- Written tags are opened by their first colon. -/
theorem Tag.Written.opensTags {t : Tag} {tags : List Tag} {text : List Char}
    (h : Tag.Written (t :: tags) (':' :: text)) : Placeholder.opensTags text = true := by
  obtain ⟨first, rest, hsplit⟩ := List.exists_cons_of_ne_nil (List.splitOn_ne_nil ':' text)
  have hnames := h.map_trim_splitOn
  have hhead := Placeholder.head?_splitOn text
  rw [hsplit, List.map_cons, List.map_cons, List.cons.injEq] at hnames
  rw [hsplit, List.head?_cons, Option.some_inj] at hhead
  rw [Placeholder.opensTags, ← hhead, hnames.1, Tag.isWord_name]

/-- Tags behind a text none of whose colons opens tags are cut off. -/
theorem Placeholder.splitTags_of_written {head text : List Char} {tags : List Tag}
    (hhead : Untagged head) (h : Tag.Written tags text) :
    splitTags (head ++ text) = (head, tags.map fun t => t.name.toList) := by
  cases htags : tags with
  | nil =>
    subst htags
    cases h
    rw [List.append_nil]
    exact splitTags_of_untagged hhead
  | cons t rest =>
    subst htags
    obtain ⟨text', rfl⟩ := h.exists_eq_cons
    have hne : ∀ name ∈ (t :: rest).map fun u => u.name.toList, (decide (name ≠ [])) = true := by
      intro name hname
      obtain ⟨u, -, rfl⟩ := List.mem_map.1 hname
      cases u <;> decide
    rw [splitTags_append hhead h.opensTags, h.map_trim_splitOn, List.filter_eq_self.2 hne]

/-- The names of tags are read as these tags. -/
theorem Placeholder.parseTags_map_name (tags : List Tag) :
    parseTags (tags.map fun t => t.name.toList) = .ok tags := by
  rw [parseTags, List.mapM_map]
  have hmap := mapM_eq_ok_map (f := fun t : Tag => parseTag t.name.toList) (g := id) (l := tags)
    fun t _ => parseTag_eq_ok_iff.2 rfl
  rwa [List.map_id] at hmap

/-! ## Marks and bars -/

/-- An alternative that is written has no bar. -/
theorem Clause.Written.bar_not_mem {c : Clause} {part : List Char} (hc : c.WellFormed)
    (h : c.Written part) : '|' ∉ part := by
  obtain ⟨hfront, hback, htags, -⟩ := h
  simp only [List.mem_append, not_or]
  exact ⟨⟨hfront.not_mem rfl, hc.bar_not_mem, hback.not_mem rfl⟩,
    htags.not_mem (by decide) rfl rfl⟩

/-- An alternative that is written holds no mark. A path may end in a question mark, so that the
blank in front of the first tag counts. -/
theorem Clause.Written.mark_not_infix {c : Clause} {part : List Char} (hc : c.WellFormed)
    (h : c.Written part) : ¬ mark <:+: part := by
  obtain @⟨front, back, tags, hfront, hback, htags, hgap⟩ := h
  have hbehind : '?' ∉ back ++ tags := by
    rw [List.mem_append, not_or]
    exact ⟨hback.not_mem rfl, htags.not_mem (by decide) rfl rfl⟩
  have hhead : (back ++ tags).head? ≠ some ':' := by
    cases back with
    | nil =>
      have hnone : c.tags = [] := not_not.1 fun hne => hgap hne rfl
      rw [hnone] at htags
      cases htags
      decide
    | cons b back =>
      rw [List.cons_append, List.head?_cons, ne_eq, Option.some_inj]
      rintro rfl
      exact hback.not_mem (c := ':') rfl List.mem_cons_self
  have hpath : ¬ mark <:+: c.path.toList ++ (back ++ tags) :=
    Placeholder.not_mark_infix_append hc.mark_not_infix
      (Placeholder.not_mark_infix_of_not_mem hbehind) fun _ => hhead
  have hquestion : '?' ∉ front := hfront.not_mem rfl
  rw [List.append_assoc, List.append_assoc]
  exact Placeholder.not_mark_infix_append (Placeholder.not_mark_infix_of_not_mem hquestion) hpath
    fun hlast => absurd (List.mem_of_getLast? hlast) hquestion

/-! ## Reading what is written -/

/-- An alternative that is written is read back. -/
theorem Clause.parse_of_written {c : Clause} {part : List Char} (hc : c.WellFormed)
    (h : c.Written part) : Clause.parse part = .ok c := by
  obtain ⟨hfront, hback, htags, -⟩ := h
  have hhead := (Placeholder.untagged_blank_append_iff hfront hback).2 hc.untagged
  rw [Clause.parse, Placeholder.splitTags_of_written hhead htags]
  simp only [Placeholder.parseTags_map_name, Text.trim_append hfront hback, hc.trim_eq,
    String.ofList_toList]
  rfl

/-- A fallback that is written is read back. -/
theorem Fallback.parse_of_written {f : Fallback} {text : List Char}
    (hf : Untagged f.literal.toList) (h : f.Written text) : Fallback.parse text = .ok f := by
  obtain ⟨htag⟩ := h
  obtain ⟨literal, tag⟩ := f
  rw [Fallback.parse, Placeholder.splitTags_of_written hf htag]
  simp only [Placeholder.parseTags_map_name, String.ofList_toList]
  cases tag <;> rfl

namespace Placeholder

/-- Parts between bars hold neither bars nor marks when the alternatives that they write are
well-formed. -/
theorem forall_mem_of_written {clauses : List Clause} {parts : List (List Char)}
    (hc : ∀ c ∈ clauses, c.WellFormed) (h : List.Forall₂ Clause.Written clauses parts) :
    ∀ part ∈ parts, '|' ∉ part ∧ ¬ mark <:+: part := by
  induction h with
  | nil => exact fun part hpart => absurd hpart List.not_mem_nil
  | cons hpart _ ih =>
    rw [List.forall_mem_cons] at hc ⊢
    exact ⟨⟨hpart.bar_not_mem hc.1, hpart.mark_not_infix hc.1⟩, ih hc.2⟩

/-- **What is written is read back.** -/
theorem parse_of_written {p : Placeholder} {body : List Char} (hp : p.WellFormed)
    (h : p.Written body) : parse body = .ok p := by
  obtain ⟨clauses, fallback⟩ := p
  have hparts : ∀ parts, List.Forall₂ Clause.Written clauses parts →
      ¬ mark <:+: List.intercalate ['|'] parts
        ∧ ((List.intercalate ['|'] parts).splitOn '|').mapM Clause.parse = .ok clauses := by
    intro parts hwritten
    have hforall := forall_mem_of_written hp.wellFormed_of_mem hwritten
    have hne : parts ≠ [] := by
      rintro rfl
      exact hp.ne_nil (List.forall₂_nil_right_iff.1 hwritten)
    refine ⟨not_mark_infix_intercalate fun part hpart => (hforall part hpart).2, ?_⟩
    rw [List.splitOn_intercalate '|' (fun part hpart => (hforall part hpart).1) hne]
    refine mapM_eq_ok_of_forall₂ (List.Forall₂.flip ?_)
    exact ((List.forall₂_and_left clauses parts).2 ⟨hp.wellFormed_of_mem, hwritten⟩).imp
      fun c part hboth => Clause.parse_of_written hboth.1 hboth.2
  cases h with
  | alone hfallback hclauses =>
    cases hfallback
    obtain ⟨hmark, hread⟩ := hparts _ hclauses
    exact (Sections.alone hmark).parse_eq_ok_iff.2 ⟨rfl, hread⟩
  | marked hfallback hclauses htext =>
    cases hfallback
    obtain ⟨hmark, hread⟩ := hparts _ hclauses
    have hf := Fallback.parse_of_written (hp.untagged_literal _ rfl) htext
    refine (Sections.marked rfl hmark).parse_eq_ok_iff.2 ⟨?_, hread⟩
    rw [Option.mapM_some, hf]
    rfl

end Placeholder

/-! ## Well-formedness of what is read -/

/-- A part is found in the text of parts with separators between them. -/
theorem infix_intercalate_of_mem {α : Type} {sep part : List α} {parts : List (List α)}
    (h : part ∈ parts) : part <:+: List.intercalate sep parts := by
  induction parts with
  | nil => cases h
  | cons first rest ih =>
    cases rest with
    | nil =>
      obtain rfl := List.mem_singleton.1 h
      exact ⟨[], [], by rw [List.intercalate_singleton, List.nil_append, List.append_nil]⟩
    | cons next rest =>
      rw [List.intercalate_cons_cons, List.append_assoc]
      rcases List.mem_cons.1 h with rfl | h
      · exact (List.prefix_append part _).isInfix
      · rw [← List.append_assoc]
        exact (ih h).trans (List.suffix_append (first ++ sep) _).isInfix

/-- No piece of a text holds the separator at which the text is cut. -/
theorem not_mem_of_mem_splitOn {a : Char} {s piece : List Char} (h : piece ∈ s.splitOn a) :
    a ∉ piece := by
  induction s generalizing piece with
  | nil =>
    rw [List.splitOn_nil, List.mem_singleton] at h
    rw [h]
    exact List.not_mem_nil
  | cons c r ih =>
    obtain ⟨first, rest, hsplit⟩ := List.exists_cons_of_ne_nil (List.splitOn_ne_nil a r)
    rw [List.splitOn_cons_eq_if_modifyHead, hsplit, List.modifyHead_cons] at h
    rw [hsplit] at ih
    split at h
    · rcases List.mem_cons.1 h with rfl | h
      · exact List.not_mem_nil
      · exact ih h
    · next hc =>
      rcases List.mem_cons.1 h with rfl | h
      · rw [List.mem_cons, not_or]
        exact ⟨fun heq => hc (by simp [heq]), ih List.mem_cons_self⟩
      · exact ih (List.mem_cons_of_mem first h)

/-- An alternative that is read from a part without bars and marks is well-formed. -/
theorem Clause.wellFormed_of_parse {part : List Char} {c : Clause} (hbar : '|' ∉ part)
    (hmark : ¬ mark <:+: part) (h : Clause.parse part = .ok c) : c.WellFormed := by
  obtain ⟨tags, -, h⟩ := bind_eq_ok_iff.1 h
  cases h
  obtain ⟨hfst, huntagged⟩ := Placeholder.splitTags_fst part
  have hpart : Text.trim (Placeholder.splitTags part).1 <:+: part :=
    (Text.trim_infix _).trans hfst.isInfix
  obtain ⟨front, back, hfront, hback, hpath⟩ :=
    Text.exists_eq_append_trim (Placeholder.splitTags part).1
  rw [hpath, Placeholder.untagged_blank_append_iff hfront hback] at huntagged
  constructor
  · rw [String.toList_ofList, Text.trim_trim]
  · rw [String.toList_ofList]
    exact fun hmem => hbar (hpart.subset hmem)
  · rw [String.toList_ofList]
    exact fun hmem => hmark (hmem.trans hpart)
  · rw [String.toList_ofList]
    exact huntagged

/-- A fallback that is read has no colon that opens tags. -/
theorem Fallback.untagged_of_parse {text : List Char} {f : Fallback}
    (h : Fallback.parse text = .ok f) : Untagged f.literal.toList := by
  obtain ⟨tags, -, h⟩ := bind_eq_ok_iff.1 h
  cases h
  rw [String.toList_ofList]
  exact (Placeholder.splitTags_fst text).2

/-! ## Written forms exist -/

/-- All tags can be written. -/
theorem Tag.exists_written (tags : List Tag) : ∃ text, Tag.Written tags text := by
  induction tags with
  | nil => exact ⟨[], .nil⟩
  | cons t tags ih =>
    obtain ⟨text, htext⟩ := ih
    exact ⟨_, .cons Text.blank_nil Text.blank_nil htext⟩

/-- All alternatives can be written. -/
theorem Clause.exists_written (clauses : List Clause) :
    ∃ parts, List.Forall₂ Clause.Written clauses parts := by
  induction clauses with
  | nil => exact ⟨[], .nil⟩
  | cons c clauses ih =>
    obtain ⟨parts, hparts⟩ := ih
    obtain ⟨text, htext⟩ := Tag.exists_written c.tags
    have hc : c.Written ([] ++ (c.path.toList ++ [' ']) ++ text) :=
      .intro Text.blank_nil (Text.blank_singleton rfl) htext fun _ => List.cons_ne_nil ' ' []
    exact ⟨_ :: parts, .cons hc hparts⟩

namespace Placeholder

/-- **What is read is well-formed.** -/
theorem wellFormed_of_parse {body : List Char} {p : Placeholder} (h : parse body = .ok p) :
    p.WellFormed := by
  obtain ⟨text, fallback, hsections⟩ := exists_sections body
  obtain ⟨hfallback, hclauses⟩ := hsections.parse_eq_ok_iff.1 h
  have hmark : ¬ mark <:+: text := hsections.not_mark_infix
  constructor
  · intro hempty
    rw [hempty] at hclauses
    have hnil := List.forall₂_nil_right_iff.1 (forall₂_of_mapM_eq_ok hclauses)
    exact List.splitOn_ne_nil '|' text hnil
  · intro c hc
    obtain ⟨part, hpart, hread⟩ := exists_mem_of_mapM_eq_ok hclauses c hc
    have hwithin : part <:+: List.intercalate ['|'] (text.splitOn '|') :=
      infix_intercalate_of_mem hpart
    rw [List.intercalate_splitOn] at hwithin
    exact Clause.wellFormed_of_parse (not_mem_of_mem_splitOn hpart)
      (fun hmem => hmark (hmem.trans hwithin)) hread
  · intro f hf
    rw [Option.mem_def.1 hf] at hfallback
    cases fallback with
    | none => cases hfallback
    | some part =>
      rw [Option.mapM_some] at hfallback
      obtain ⟨f', hread, heq⟩ := bind_eq_ok_iff.1 hfallback
      cases heq
      exact Fallback.untagged_of_parse hread

/-- Every placeholder has a written form. -/
theorem exists_written (p : Placeholder) : ∃ body, p.Written body := by
  obtain ⟨parts, hparts⟩ := Clause.exists_written p.clauses
  cases hfallback : p.fallback with
  | none => exact ⟨_, .alone hfallback hparts⟩
  | some f =>
    obtain ⟨text, htext⟩ := Tag.exists_written f.tag.toList
    exact ⟨_, .marked hfallback hparts (.intro htext)⟩

/-- **Reading inverts writing.** -/
theorem parse_inverts_written (p : Placeholder) :
    (∃ body, p.Written body)
      ∧ (p.WellFormed → ∀ body, p.Written body → parse body = .ok p)
      ∧ ∀ body, parse body = .ok p → p.WellFormed :=
  ⟨exists_written p, fun hp _ h => parse_of_written hp h, fun _ h => wellFormed_of_parse h⟩

/-- A path that ends in a question mark, colons that open no tags, and a fallback with a bar and a
mark. -/
theorem parse_inverts_written_of_marks_in_text :
    let p : Placeholder :=
      ⟨[⟨"a?", [.int, .null]⟩, ⟨"urn:a.b", []⟩], some ⟨" x|y?:/z:", some .str⟩⟩
    let body := "a? : int:null |urn:a.b ?: x|y?:/z:: str ".toList
    p.Written body ∧ parse body = .ok p ∧ p.WellFormed := by
  intro p body
  have hp : p.WellFormed := by decide +kernel
  have hblank : Text.Blank [' '] := Text.blank_singleton rfl
  have hfirst := Clause.Written.intro (c := ⟨"a?", [.int, .null]⟩) Text.blank_nil hblank
    (.cons hblank Text.blank_nil (.cons Text.blank_nil hblank .nil)) fun _ => List.cons_ne_nil _ _
  have hsecond := Clause.Written.intro (c := ⟨"urn:a.b", []⟩) Text.blank_nil hblank .nil
    fun hne => absurd rfl hne
  have htext := Fallback.Written.intro (f := ⟨" x|y?:/z:", some .str⟩)
    (.cons hblank hblank .nil)
  have hform := Written.marked (p := p) rfl (.cons hfirst (.cons hsecond .nil)) htext
  have hbody : p.Written body := by
    refine cast (congrArg p.Written ?_) hform
    decide +kernel
  have hread := (parse_inverts_written p).2.1 hp body hbody
  exact ⟨hbody, hread, (parse_inverts_written p).2.2 body hread⟩

end Placeholder

end Stencil
