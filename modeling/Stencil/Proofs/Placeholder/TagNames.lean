import Stencil.Proofs.Failure

/-!
# The names that a placeholder writes

In each part of a placeholder the tags begin behind the first colon that a word follows, blanks
aside, and every name from there on is written, whether or not it is the name of a tag. Reading a
placeholder succeeds exactly when all written names are names of tags. Its alternatives keep them
all; its fallback keeps the first one.

## Main definitions

* `Stencil.Placeholder.tagSection?` — the text behind the colon that opens the tags of a part.
* `Stencil.Placeholder.tagNames` — the names that a part writes.
* `Stencil.Placeholder.clauseNames`, `Stencil.Placeholder.fallbackNames`,
  `Stencil.Placeholder.writtenNames` — those of the alternatives, of the fallback, of both.
* `Stencil.Placeholder.keptNames`, `Stencil.Placeholder.droppedNames` — the names that reading a
  body keeps, and those that it only looks at.
* `Stencil.Tag.Named` — some tag of a list has the name.

## Main results

* `Stencil.Placeholder.parseTag_eq_ok_iff`, `Stencil.Placeholder.parseTag_eq_error_iff` — looking a
  name up.
* `Stencil.Placeholder.splitTags_snd` — cutting a part at its colons finds the names it writes.
* `Stencil.Placeholder.failure?_parse` — reading fails as the first name that is none of a tag.
* `Stencil.Placeholder.tags_of_parse` — which of the written names are kept.
-/

set_option autoImplicit false

namespace Stencil

/-- Some tag of the list has this name. -/
def Tag.Named (tags : List Tag) (name : List Char) : Prop := ∃ t ∈ tags, t.name.toList = name

instance Tag.instDecidableNamed (tags : List Tag) (name : List Char) :
    Decidable (Tag.Named tags name) :=
  inferInstanceAs (Decidable (∃ t ∈ tags, t.name.toList = name))

/-- A tag is on a list exactly when its name is. -/
theorem Tag.named_name_iff {tags : List Tag} {t : Tag} :
    Tag.Named tags t.name.toList ↔ t ∈ tags := by
  constructor
  · rintro ⟨u, hu, hname⟩
    have h := congrArg Tag.ofName? (String.toList_inj.1 hname)
    rw [Tag.ofName?_name, Tag.ofName?_name, Option.some_inj] at h
    exact h ▸ hu
  · intro h
    exact ⟨t, h, rfl⟩

/-- A name on a list is the name of a tag. -/
theorem Tag.Named.all {tags : List Tag} {name : List Char} (h : Tag.Named tags name) :
    Tag.Named Tag.all name := by
  obtain ⟨t, -, ht⟩ := h
  exact ⟨t, Tag.mem_all t, ht⟩

namespace Placeholder

/-! ## Where the tags of a part begin -/

/-- Behind a colon, a word that reaches to the next colon opens the tags, blanks aside. -/
def opensTags (behind : List Char) : Bool := Tag.isWord (Text.trim (behind.takeWhile (· ≠ ':')))

/-- The text behind the first colon of a part that opens the tags. -/
def tagSection? : List Char → Option (List Char)
  | [] => none
  | c :: r => if c = ':' ∧ opensTags r = true then some r else tagSection? r

/-- The names that a part writes: what stands between the colons of its tags, without blanks around
it, as far as it is not empty. -/
def tagNames (part : List Char) : List (List Char) :=
  match tagSection? part with
  | none => []
  | some tags => ((tags.splitOn ':').map Text.trim).filter (· ≠ [])

/-- The first piece of a text cut at its colons reaches to the first colon. -/
theorem head?_splitOn (s : List Char) :
    (s.splitOn ':').head? = some (s.takeWhile (· ≠ ':')) := by
  induction s with
  | nil => rfl
  | cons c r ih =>
    rw [List.splitOn_cons_eq_if_modifyHead]
    by_cases hc : c = ':'
    · simp [hc]
    · obtain ⟨first, rest, hsplit⟩ := List.exists_cons_of_ne_nil (List.splitOn_ne_nil ':' r)
      rw [hsplit, List.head?_cons, Option.some_inj] at ih
      simp [hc, hsplit, ih]

/-- The pieces behind the first one, from the first word on, are those of the text behind the colon
that opens the tags. -/
theorem dropWhile_tail_splitOn (s : List Char) :
    (s.splitOn ':').tail.dropWhile (fun piece => !Tag.isWord (Text.trim piece))
      = match tagSection? s with
        | none => []
        | some tags => tags.splitOn ':' := by
  induction s with
  | nil => rfl
  | cons c r ih =>
    obtain ⟨first, rest, hsplit⟩ := List.exists_cons_of_ne_nil (List.splitOn_ne_nil ':' r)
    have hfirst : opensTags r = Tag.isWord (Text.trim first) := by
      have hhead := head?_splitOn r
      rw [hsplit, List.head?_cons, Option.some_inj] at hhead
      rw [opensTags, ← hhead]
    rw [hsplit, List.tail_cons] at ih
    rw [List.splitOn_cons_eq_if_modifyHead, hsplit, tagSection?, hfirst]
    by_cases hc : c = ':'
    · rw [if_pos (by simpa using hc), List.tail_cons, List.dropWhile_cons]
      by_cases hword : Tag.isWord (Text.trim first) = true
      · simp [hc, hword, hsplit]
      · simp only [hc, hword, and_false, Bool.false_eq_true, if_false, Bool.not_false, if_true]
        exact ih
    · rw [if_neg (by simpa using hc), List.modifyHead_cons, List.tail_cons,
        if_neg (fun h => hc h.1)]
      exact ih

/-- Cutting a part at its colons finds the names that it writes. -/
theorem splitTags_snd (part : List Char) : (splitTags part).2 = tagNames part := by
  obtain ⟨first, rest, hsplit⟩ := List.exists_cons_of_ne_nil (List.splitOn_ne_nil ':' part)
  have htail := dropWhile_tail_splitOn part
  rw [hsplit, List.tail_cons] at htail
  simp only [splitTags, hsplit, htail, tagNames]
  cases tagSection? part <;> rfl

/-! ## Reading names -/

/-- A name is read as the tag that has it. -/
theorem parseTag_eq_ok_iff {name : List Char} {t : Tag} :
    parseTag name = .ok t ↔ t.name.toList = name := by
  have hname : t.name = String.ofList name ↔ t.name.toList = name := by
    rw [← String.toList_inj, String.toList_ofList]
  rw [← hname, ← Tag.ofName?_eq_some_iff, parseTag]
  cases Tag.ofName? (String.ofList name) <;> simp

/-- A name that is none of a tag is refused. -/
theorem parseTag_eq_error_iff {name : List Char} {e : RenderError} :
    parseTag name = .error e
      ↔ ¬ Tag.Named Tag.all name ∧ e = .unknownTag (String.ofList name) := by
  cases h : parseTag name with
  | ok t =>
    have hnamed : Tag.Named Tag.all name := ⟨t, Tag.mem_all t, parseTag_eq_ok_iff.1 h⟩
    simp [hnamed]
  | error e' =>
    have hnamed : ¬ Tag.Named Tag.all name := by
      rintro ⟨t, -, ht⟩
      rw [parseTag_eq_ok_iff.2 ht] at h
      cases h
    rw [parseTag] at h
    split at h
    · cases h
    · cases h
      simp [hnamed, eq_comm]

/-- A name is looked up without failure exactly when it is that of a tag. -/
theorem failure?_parseTag_eq_none_iff {name : List Char} :
    failure? (parseTag name) = none ↔ Tag.Named Tag.all name := by
  rw [failure?_eq_none_iff]
  constructor
  · rintro ⟨t, ht⟩
    exact ⟨t, Tag.mem_all t, parseTag_eq_ok_iff.1 ht⟩
  · rintro ⟨t, -, ht⟩
    exact ⟨t, parseTag_eq_ok_iff.2 ht⟩

/-- Looking names up fails as the first one that is none of a tag. -/
theorem findSome?_failure?_parseTag_eq_some_iff {names : List (List Char)} {e : RenderError} :
    names.findSome? (fun n => failure? (parseTag n)) = some e ↔
      ∃ before n after, names = before ++ n :: after ∧ (∀ m ∈ before, Tag.Named Tag.all m)
        ∧ ¬ Tag.Named Tag.all n ∧ e = .unknownTag (String.ofList n) := by
  simp only [List.findSome?_eq_some_iff, failure?_eq_some_iff, parseTag_eq_error_iff,
    failure?_parseTag_eq_none_iff, and_assoc, and_comm]

/-- Reading names keeps every one of them, in order. -/
theorem map_name_of_parseTags {names : List (List Char)} {tags : List Tag}
    (h : parseTags names = .ok tags) : tags.map (fun t => t.name.toList) = names := by
  induction names generalizing tags with
  | nil =>
    cases h
    rfl
  | cons name names ih =>
    rw [parseTags, List.mapM_cons, bind_eq_ok_iff] at h
    obtain ⟨t, ht, h⟩ := h
    obtain ⟨rest, hrest, h⟩ := bind_eq_ok_iff.1 h
    cases h
    rw [List.map_cons, parseTag_eq_ok_iff.1 ht, ih hrest]

/-- An alternative is read from the names that its part writes. -/
theorem parse_clause_eq (part : List Char) : Clause.parse part = (do
    let tags ← parseTags (tagNames part)
    return ⟨String.ofList (Text.trim (splitTags part).1), tags⟩) := by
  rw [← splitTags_snd]
  rfl

/-- A fallback is read from the names that its part writes. -/
theorem parse_fallback_eq (part : List Char) : Fallback.parse part = (do
    let tags ← parseTags (tagNames part)
    return ⟨String.ofList (splitTags part).1, tags.head?⟩) := by
  rw [← splitTags_snd]
  rfl

/-- The alternative that a part writes has the names of the part. -/
theorem map_name_of_parse_clause {part : List Char} {c : Clause} (h : Clause.parse part = .ok c) :
    c.tags.map (fun t => t.name.toList) = tagNames part := by
  rw [parse_clause_eq, bind_eq_ok_iff] at h
  obtain ⟨tags, htags, h⟩ := h
  cases h
  exact map_name_of_parseTags htags

/-- The fallback that a part writes has the first name of the part. -/
theorem map_name_of_parse_fallback {part : List Char} {f : Fallback}
    (h : Fallback.parse part = .ok f) :
    f.tag.map (fun t => t.name.toList) = (tagNames part).head? := by
  rw [parse_fallback_eq, bind_eq_ok_iff] at h
  obtain ⟨tags, htags, h⟩ := h
  cases h
  rw [← map_name_of_parseTags htags, List.head?_map]

/-- Reading an alternative fails as the first of its names that is none of a tag. -/
theorem failure?_parse_clause (part : List Char) :
    failure? (Clause.parse part) = (tagNames part).findSome? fun n => failure? (parseTag n) := by
  rw [parse_clause_eq, failure?_bind_pure, parseTags, failure?_mapM]

/-- Reading a fallback fails as the first of its names that is none of a tag. -/
theorem failure?_parse_fallback (part : List Char) :
    failure? (Fallback.parse part) = (tagNames part).findSome? fun n => failure? (parseTag n) := by
  rw [parse_fallback_eq, failure?_bind_pure, parseTags, failure?_mapM]

/-! ## The names of a body -/

/-- The names that the alternatives of a body write, in order. -/
def clauseNames (body : List Char) : List (List Char) :=
  ((splitFallback body).1.splitOn '|').flatMap tagNames

/-- The names that the fallback of a body writes, in order. -/
def fallbackNames (body : List Char) : List (List Char) :=
  match (splitFallback body).2 with
  | none => []
  | some fallback => tagNames fallback

/-- All names that a body writes, those of the alternatives first. -/
def writtenNames (body : List Char) : List (List Char) := clauseNames body ++ fallbackNames body

/-- The names of the alternatives and the first name of the fallback. -/
def keptNames (body : List Char) : List (List Char) :=
  clauseNames body ++ (fallbackNames body).head?.toList

/-- The names of the fallback behind its first one. -/
def droppedNames (body : List Char) : List (List Char) := (fallbackNames body).tail

/-- The written names are those that are kept and those that are dropped. -/
theorem keptNames_append_droppedNames (body : List Char) :
    keptNames body ++ droppedNames body = writtenNames body := by
  rw [keptNames, droppedNames, writtenNames, List.append_assoc]
  cases fallbackNames body <;> rfl

/-- Reading the alternatives one after the other keeps the names of them all. -/
theorem flatMap_map_name_of_mapM {parts : List (List Char)} {clauses : List Clause}
    (h : parts.mapM Clause.parse = .ok clauses) :
    (clauses.flatMap Clause.tags).map (fun t => t.name.toList) = parts.flatMap tagNames := by
  induction parts generalizing clauses with
  | nil =>
    cases h
    rfl
  | cons part parts ih =>
    rw [List.mapM_cons, bind_eq_ok_iff] at h
    obtain ⟨c, hc, h⟩ := h
    obtain ⟨rest, hrest, h⟩ := bind_eq_ok_iff.1 h
    cases h
    rw [List.flatMap_cons, List.map_append, map_name_of_parse_clause hc, ih hrest,
      List.flatMap_cons]

/-- The two parts of a body are read one after the other. -/
theorem parse_eq (body : List Char) : parse body = do
    let fallback ← (splitFallback body).2.mapM Fallback.parse
    let clauses ← ((splitFallback body).1.splitOn '|').mapM Clause.parse
    return ⟨clauses, fallback⟩ := rfl

/-- Reading a body keeps all names of its alternatives and the first name of its fallback. -/
theorem tags_of_parse {body : List Char} {p : Placeholder} (h : parse body = .ok p) :
    p.tags.map (fun t => t.name.toList) = keptNames body := by
  rw [parse_eq] at h
  obtain ⟨fallback, hfallback, h⟩ := bind_eq_ok_iff.1 h
  obtain ⟨clauses, hclauses, h⟩ := bind_eq_ok_iff.1 h
  cases h
  have hfirst : (fallback.bind Fallback.tag).map (fun t => t.name.toList)
      = (fallbackNames body).head? := by
    rw [fallbackNames]
    cases hsplit : (splitFallback body).2 with
    | none =>
      rw [hsplit] at hfallback
      cases hfallback
      rfl
    | some text =>
      rw [hsplit, Option.mapM_some] at hfallback
      obtain ⟨f, hf, hfallback⟩ := bind_eq_ok_iff.1 hfallback
      cases hfallback
      exact map_name_of_parse_fallback hf
  rw [tags, List.map_append, flatMap_map_name_of_mapM hclauses, keptNames, ← hfirst, clauseNames]
  cases fallback.bind Fallback.tag <;> rfl

/-- Reading a body fails as the first name that is none of a tag. The names of the fallback are
looked at first, and all of them. -/
theorem failure?_parse (body : List Char) :
    failure? (parse body)
      = (fallbackNames body ++ clauseNames body).findSome? fun n => failure? (parseTag n) := by
  have hfallback : failure? ((splitFallback body).2.mapM Fallback.parse)
      = (fallbackNames body).findSome? fun n => failure? (parseTag n) := by
    rw [fallbackNames]
    cases (splitFallback body).2 with
    | none => rfl
    | some text =>
      rw [← failure?_parse_fallback, Option.mapM_some]
      exact failure?_bind_pure (Fallback.parse text) some
  have hclauses : failure? (((splitFallback body).1.splitOn '|').mapM Clause.parse)
      = (clauseNames body).findSome? fun n => failure? (parseTag n) := by
    rw [failure?_mapM, clauseNames, findSome?_flatMap]
    exact congrArg (List.findSome? · _) (funext failure?_parse_clause)
  rw [parse_eq, List.findSome?_append, ← hfallback, ← hclauses]
  exact failure?_bind_of_forall fun fallback => failure?_bind_pure _ _

/-- A body can be read exactly when all names that it writes are names of tags. -/
theorem exists_parse_eq_ok_iff {body : List Char} :
    (∃ p, parse body = .ok p) ↔ ∀ n ∈ writtenNames body, Tag.Named Tag.all n := by
  rw [← failure?_eq_none_iff, failure?_parse, List.findSome?_eq_none_iff]
  simp only [failure?_parseTag_eq_none_iff, writtenNames, List.forall_mem_append, and_comm]

end Placeholder

end Stencil
