import Stencil.Proofs.Cli.Stages
import Stencil.Proofs.Numeric.Numeral
import Stencil.Proofs.Text.Occurrence
import Stencil.Proofs.Text.Trim
import Stencil.Proofs.Value.Nodes

/-!
# The format of written documents

A document that begins with a brace looks like JSON. One that begins with a bracket looks like TOML
as soon as an assignment stands anywhere in it, and this may be within quotes. So the JSON text of
an object is always taken for JSON, and that of an array unless a text or a key in it holds an
assignment.

An equals sign in a JSON text stands within quotes. So no assignment lies across the ends of a
quoted text, and since escapes have neither spaces nor equals signs, a quoted text has the
assignments of the text that it quotes.

## Main definitions

* `Stencil.Value.Mentions` — a text or a key at some depth holds a pattern.
* `Stencil.Json.Shows` — the assignments of a text that can be put together with others.

## Main results

* `Stencil.Json.assignment_infix_quote_iff` — the assignments of a quoted text.
* `Stencil.Json.shows_compact`, `Stencil.Json.shows_prettyAt` — the assignments of a JSON text.
* `Stencil.Format.sniff_render_json` — what the JSON text of a container looks like, and how it is
  read.
-/

set_option autoImplicit false

namespace Stencil

open Format (assignment)
open Text (Blank)

/-! ## Texts and keys -/

namespace Value

variable {p : List Char}

/-- The texts of a node itself: the text that it is, or its keys. -/
def ownTexts : Value → List String
  | .str s => [s]
  | v => v.keys

/-- A text or a key at some depth holds the pattern. -/
def Mentions (p : List Char) (v : Value) : Prop :=
  ∃ n ∈ v.subtrees, ∃ t ∈ n.ownTexts, p <:+: t.toList

instance (p : List Char) (v : Value) : Decidable (Mentions p v) :=
  inferInstanceAs (Decidable (∃ n ∈ v.subtrees, ∃ t ∈ n.ownTexts, p <:+: t.toList))

/-- A value without texts and keys mentions nothing. -/
theorem not_mentions {v : Value} (hnodes : v.subtrees = [v]) (htexts : v.ownTexts = []) :
    ¬ v.Mentions p := by
  simp [Mentions, hnodes, htexts]

/-- A text mentions what it holds. -/
theorem mentions_str {s : String} : Mentions p (.str s) ↔ p <:+: s.toList := by
  simp [Mentions, subtrees, ownTexts]

/-- An array mentions what its items mention. -/
theorem mentions_arr {items : List Value} :
    Mentions p (.arr items) ↔ ∃ v ∈ items, v.Mentions p := by
  simp only [Mentions, subtrees_arr, List.mem_cons, List.mem_flatMap]
  constructor
  · rintro ⟨n, rfl | ⟨v, hv, hn⟩, t, ht, hp⟩
    · cases ht
    · exact ⟨v, hv, n, hn, t, ht, hp⟩
  · rintro ⟨v, hv, n, hn, t, ht, hp⟩
    exact ⟨n, .inr ⟨v, hv, hn⟩, t, ht, hp⟩

/-- An object mentions what its keys hold and what the values of its members mention. -/
theorem mentions_obj {members : Members} :
    Mentions p (.obj members) ↔ ∃ m ∈ members, p <:+: m.1.toList ∨ m.2.Mentions p := by
  simp only [Mentions, subtrees_obj, List.mem_cons, List.mem_flatMap]
  constructor
  · rintro ⟨n, rfl | ⟨m, hm, hn⟩, t, ht, hp⟩
    · obtain ⟨m, hm, rfl⟩ := List.mem_map.1 ht
      exact ⟨m, hm, .inl hp⟩
    · exact ⟨m, hm, .inr ⟨n, hn, t, ht, hp⟩⟩
  · rintro ⟨m, hm, hp | ⟨n, hn, t, ht, hp⟩⟩
    · exact ⟨_, .inl rfl, m.1, List.mem_map_of_mem hm, hp⟩
    · exact ⟨n, .inr ⟨m, hm, hn⟩, t, ht, hp⟩

end Value

namespace Json

variable {s t : List Char} {M N : Prop}

/-! ## Quoted texts -/

/-- A character stands as it is, or for an escape without spaces. -/
theorem escape_cases (c : Char) :
    escape c = [c] ∨ ∃ tail, escape c = '\\' :: tail ∧ ' ' ∉ tail := by
  have hdigit : ∀ n < 16, Nat.digitChar n ≠ ' ' := by decide
  rw [escape.eq_def]
  split
  iterate 7
    · exact .inr ⟨_, rfl, by decide⟩
  split
  · next hlow =>
    refine .inr ⟨_, rfl, ?_⟩
    have hhigh := hdigit (c.toNat / 16) (by omega)
    have hrest := hdigit (c.toNat % 16) (by omega)
    simp [hhigh.symm, hrest.symm]
  · exact .inl rfl

/-- Escaping a text does not change whether it begins with characters that stand as they are. -/
theorem prefix_flatMap_escape_iff {p : List Char} (hp : ∀ c ∈ p, escape c = [c]) (s : List Char) :
    p <+: s.flatMap escape ↔ p <+: s := by
  induction p generalizing s with
  | nil => simp
  | cons c p ih =>
    rw [List.forall_mem_cons] at hp
    cases s with
    | nil => rfl
    | cons d s =>
      rw [List.flatMap_cons]
      rcases escape_cases d with hd | ⟨tail, hd, -⟩
      · rw [hd, List.singleton_append, List.cons_prefix_cons, List.cons_prefix_cons, ih hp.2]
      · -- an escape begins with a backslash, which does not stand as it is, so neither text begins
        -- with `c`
        have hslash : c ≠ '\\' := by
          rintro rfl
          exact absurd hp.1 (by decide)
        have hne : c ≠ d := by
          rintro rfl
          rw [hp.1, List.cons.injEq] at hd
          exact hslash hd.1
        rw [hd, List.cons_append, List.cons_prefix_cons, List.cons_prefix_cons]
        exact iff_of_false (fun h => hslash h.1) fun h => hne h.1

/-- The characters of an assignment stand as they are. -/
theorem escape_of_mem_assignment : ∀ c ∈ assignment, escape c = [c] := by
  have hspace : escape ' ' = [' '] := by decide
  have hequals : escape '=' = ['='] := by decide
  simp [assignment, hspace, hequals]

/-- Escaping a text does not change its assignments. -/
theorem assignment_infix_flatMap_escape_iff (s : List Char) :
    assignment <:+: s.flatMap escape ↔ assignment <:+: s := by
  induction s with
  | nil => rfl
  | cons c s ih =>
    have hstart := prefix_flatMap_escape_iff escape_of_mem_assignment (c :: s)
    rw [List.infix_cons_iff, ← hstart, List.flatMap_cons]
    rcases escape_cases c with hc | ⟨tail, hc, htail⟩
    · rw [hc, List.singleton_append, List.infix_cons_iff, ih]
    · have hfront : ' ' ∉ escape c := by
        rw [hc, List.mem_cons, not_or]
        exact ⟨by decide, htail⟩
      have hnone : ¬ assignment <+: escape c ++ s.flatMap escape := by
        rw [hc, List.cons_append, assignment, List.cons_prefix_cons]
        exact fun h => absurd h.1 (by decide)
      rw [or_iff_right hnone, ← ih, assignment, Text.infix_append_of_not_mem hfront]

/-- A quoted text has the assignments of the text that it quotes. -/
theorem assignment_infix_quote_iff (s : String) :
    assignment <:+: quote s ↔ assignment <:+: s.toList := by
  have hclose : ¬ assignment <:+ s.toList.flatMap escape ++ ['"'] := by
    rintro ⟨front, hfront⟩
    have hlast := congrArg List.getLast? hfront
    simp [assignment] at hlast
  have hopen : ¬ assignment <+: quote s := by
    rw [quote, assignment, List.cons_prefix_cons]
    exact fun h => absurd h.1 (by decide)
  rw [quote] at hopen ⊢
  rw [List.infix_cons_iff, or_iff_right hopen, List.infix_concat_iff, or_iff_right hclose,
    assignment_infix_flatMap_escape_iff]

/-! ## Texts put together -/

/-- A text that neither begins nor ends with an equals sign, and that has an assignment exactly when
`M` holds. An assignment in two such texts put together lies in one of them. -/
structure Shows (s : List Char) (M : Prop) : Prop where
  head : s.head? ≠ some '='
  last : s.getLast? ≠ some '='
  iff : assignment <:+: s ↔ M

/-- A text without equals signs has no assignment. -/
theorem shows_of_not_mem (h : '=' ∉ s) (hM : ¬ M) : Shows s M where
  head hhead := h (List.mem_of_mem_head? hhead)
  last hlast := h (List.mem_of_mem_getLast? hlast)
  iff := by
    refine iff_of_false (fun hin => h (hin.subset ?_)) hM
    decide

/-- Two texts put together have the assignments of both. -/
theorem Shows.append (hs : Shows s M) (ht : Shows t N) : Shows (s ++ t) (M ∨ N) where
  head := by
    rw [List.head?_append]
    cases hhead : s.head? with
    | none => exact ht.head
    | some c =>
      rw [Option.some_or, ← hhead]
      exact hs.head
  last := by
    rw [List.getLast?_append]
    cases hlast : t.getLast? with
    | none => exact hs.last
    | some c =>
      rw [Option.some_or, ← hlast]
      exact ht.last
  iff := by rw [assignment, Text.infix_append_iff hs.last ht.head, ← assignment, hs.iff, ht.iff]

/-- Texts without equals signs around a text add no assignment. -/
theorem Shows.enclose (hs : Shows s M) (front back : List Char) (hfront : '=' ∉ front)
    (hback : '=' ∉ back) : Shows (front ++ (s ++ back)) M := by
  have happend := (shows_of_not_mem hfront id).append (hs.append (shows_of_not_mem hback id))
  rwa [false_or, or_false] at happend

/-- Parts with separators between them have the assignments of the parts. -/
theorem shows_intercalate {α : Type} {sep : List Char} {f : α → List Char} {M : α → Prop}
    {parts : List α} (hsep : '=' ∉ sep) (h : ∀ a ∈ parts, Shows (f a) (M a)) :
    Shows (List.intercalate sep (parts.map f)) (∃ a ∈ parts, M a) := by
  induction parts with
  | nil => exact shows_of_not_mem List.not_mem_nil (by simp)
  | cons a rest ih =>
    rw [List.forall_mem_cons] at h
    have hrest := ih h.2
    rw [List.exists_mem_cons_iff, List.map_cons]
    cases rest with
    | nil => simpa using h.1
    | cons b rest =>
      rw [List.map_cons, List.intercalate_cons_cons, List.append_assoc]
      rw [List.map_cons] at hrest
      have htail := (shows_of_not_mem hsep id).append hrest
      rw [false_or] at htail
      exact h.1.append htail

/-- A quoted text has the assignments of the text that it quotes. -/
theorem shows_quote (s : String) : Shows (quote s) (assignment <:+: s.toList) where
  head := by simp [quote]
  last := by
    rw [quote, ← List.cons_append, List.getLast?_concat]
    decide
  iff := assignment_infix_quote_iff s

/-! ## JSON texts -/

theorem compactItems_eq (items : List Value) : compactItems items = items.map compact := by
  induction items with
  | nil => rfl
  | cons v rest ih => rw [compactItems, ih, List.map_cons]

theorem compactMembers_eq (members : Members) :
    compactMembers members = members.map fun m => quote m.1 ++ ':' :: compact m.2 := by
  induction members with
  | nil => rfl
  | cons m rest ih => rw [compactMembers, ih, List.map_cons]

theorem prettyItems_eq (level : Nat) (items : List Value) :
    prettyItems level items = items.map (prettyAt level) := by
  induction items with
  | nil => rfl
  | cons v rest ih => rw [prettyItems, ih, List.map_cons]

theorem prettyMembers_eq (level : Nat) (members : Members) :
    prettyMembers level members
      = members.map fun m => quote m.1 ++ ':' :: ' ' :: prettyAt level m.2 := by
  induction members with
  | nil => rfl
  | cons m rest ih => rw [prettyMembers, ih, List.map_cons]

/-- A value that is no container shows what it mentions. -/
theorem shows_scalar {v : Value} (harr : v.kind ≠ .array) (hobj : v.kind ≠ .object) :
    Shows (scalar v) (v.Mentions assignment) := by
  cases v with
  | null => exact shows_of_not_mem (by decide) (Value.not_mentions rfl rfl)
  | bool b =>
    refine shows_of_not_mem ?_ (Value.not_mentions rfl rfl)
    cases b <;> decide
  | num n =>
    refine shows_of_not_mem (fun hmem => ?_) (Value.not_mentions rfl rfl)
    exact absurd (Number.isNumeralChar_of_mem_text hmem) (by decide)
  | str s =>
    have hquote := shows_quote s
    rwa [← Value.mentions_str] at hquote
  | arr items => exact absurd rfl harr
  | obj members => exact absurd rfl hobj

/-- The compact text of a value shows what the value mentions. -/
theorem shows_compact (v : Value) : Shows (compact v) (v.Mentions assignment) := by
  induction v using Value.nodeInduction with
  | null | bool | num | str =>
    unfold compact
    exact shows_scalar nofun nofun
  | arr items ih =>
    rw [compact, compactItems_eq, Value.mentions_arr]
    exact (shows_intercalate (by decide) ih).enclose ['['] [']'] (by decide) (by decide)
  | obj members ih =>
    rw [compact, compactMembers_eq, Value.mentions_obj]
    refine Shows.enclose ?_ ['\x7b'] ['\x7d'] (by decide) (by decide)
    refine shows_intercalate (by decide) fun m hm => (shows_quote m.1).append ?_
    have hvalue := (ih m hm).enclose [':'] [] (by decide) List.not_mem_nil
    rwa [List.append_nil] at hvalue

/-- A line feed and spaces have no equals sign. -/
theorem not_mem_newLine (level : Nat) : '=' ∉ newLine level := by
  simp [newLine, List.mem_replicate]

/-- Parts on lines of their own, between brackets, have the assignments of the parts. -/
theorem shows_block {α : Type} {f : α → List Char} {P : α → Prop} {parts : List α}
    {opening closing : Char} (hopening : opening ≠ '=') (hclosing : closing ≠ '=')
    (h : ∀ a ∈ parts, Shows (f a) (P a)) (level : Nat) :
    Shows (block level opening closing (parts.map f)) (∃ a ∈ parts, P a) := by
  rw [block]
  split
  · next hnil =>
    rw [List.map_eq_nil_iff.1 hnil]
    exact shows_of_not_mem (by simp [hopening.symm, hclosing.symm]) (by simp)
  · have hsep : '=' ∉ ',' :: newLine (level + 1) := by simp [not_mem_newLine]
    have hparts := shows_intercalate hsep h
    have hfront : '=' ∉ opening :: newLine (level + 1) := by simp [hopening.symm, not_mem_newLine]
    have hback : '=' ∉ newLine level ++ [closing] := by simp [hclosing.symm, not_mem_newLine]
    have hblock := hparts.enclose _ _ hfront hback
    simpa using hblock

/-- The indented text of a value shows what the value mentions. -/
theorem shows_prettyAt (v : Value) (level : Nat) :
    Shows (prettyAt level v) (v.Mentions assignment) := by
  induction v using Value.nodeInduction generalizing level with
  | null | bool | num | str =>
    unfold prettyAt
    exact shows_scalar nofun nofun
  | arr items ih =>
    rw [prettyAt, prettyItems_eq, Value.mentions_arr]
    exact shows_block (by decide) (by decide) (fun v hv => ih v hv _) level
  | obj members ih =>
    rw [prettyAt, prettyMembers_eq, Value.mentions_obj]
    refine shows_block (by decide) (by decide) (fun m hm => (shows_quote m.1).append ?_) level
    have hvalue := (ih m hm (level + 1)).enclose [':', ' '] [] (by decide) List.not_mem_nil
    rwa [List.append_nil] at hvalue

end Json

/-! ## What a text looks like -/

namespace Format

variable {front : List Char}

/-- A text that begins with a brace looks like JSON. -/
theorem sniff_brace (hfront : Blank front) (rest : List Char) :
    sniff (front ++ '\x7b' :: rest) = .json := by
  rw [sniff, Text.trimStart_append hfront]
  rfl

/-- A text that begins with a bracket looks like TOML when it has an assignment, else like JSON. -/
theorem sniff_bracket (hfront : Blank front) (rest : List Char) : sniff (front ++ '[' :: rest)
    = if Text.contains assignment ('[' :: rest) = true then .toml else .json := by
  rw [sniff, Text.trimStart_append hfront]
  rfl

/-- Parts between brackets begin with the opening one. -/
theorem exists_block_eq_cons (level : Nat) (opening closing : Char) (parts : List (List Char)) :
    ∃ rest, Json.block level opening closing parts = opening :: rest := by
  rw [Json.block]
  split <;> exact ⟨_, rfl⟩

/-- The JSON text of a value shows what the value mentions. -/
theorem shows_of_render {pretty : Bool} {v : Value} {text : List Char}
    (h : render .json pretty v = .ok text) : Json.Shows text (v.Mentions assignment) := by
  cases h
  cases pretty with
  | false => exact Json.shows_compact v
  | true => exact Json.shows_prettyAt v 0

/-- A JSON text begins as both its forms do. -/
theorem exists_render_eq_cons {v : Value} {opening : Char}
    (hcompact : ∃ rest, Json.compact v = opening :: rest)
    (hpretty : ∃ rest, Json.prettyAt 0 v = opening :: rest) (pretty : Bool) :
    ∃ rest, render .json pretty v = .ok (opening :: rest) := by
  obtain ⟨compactRest, hcompact⟩ := hcompact
  obtain ⟨prettyRest, hpretty⟩ := hpretty
  cases pretty with
  | false => exact ⟨compactRest, congrArg Except.ok hcompact⟩
  | true => exact ⟨prettyRest, congrArg Except.ok hpretty⟩

/-- The JSON text of an object begins with a brace. -/
theorem exists_render_obj (pretty : Bool) (members : Members) :
    ∃ rest, render .json pretty (.obj members) = .ok ('\x7b' :: rest) := by
  refine exists_render_eq_cons ⟨_, by rw [Json.compact]⟩ ?_ pretty
  rw [Json.prettyAt]
  exact exists_block_eq_cons 0 _ _ _

/-- The JSON text of an array begins with a bracket. -/
theorem exists_render_arr (pretty : Bool) (items : List Value) :
    ∃ rest, render .json pretty (.arr items) = .ok ('[' :: rest) := by
  refine exists_render_eq_cons ⟨_, by rw [Json.compact]⟩ ?_ pretty
  rw [Json.prettyAt]
  exact exists_block_eq_cons 0 _ _ _

/-- The JSON text of a container, with blanks around it, looks like TOML when the container is an
array that mentions an assignment, else like JSON. -/
theorem exists_sniff_render_json {v : Value} (hv : v.kind = .object ∨ v.kind = .array)
    (pretty : Bool) : ∃ text, render .json pretty v = .ok text ∧
      ∀ front back, Blank front → Blank back → sniff (front ++ (text ++ back))
        = if v.kind = .array ∧ v.Mentions assignment then .toml else .json := by
  cases v with
  | obj members =>
    obtain ⟨rest, hrender⟩ := exists_render_obj pretty members
    refine ⟨_, hrender, fun front back hfront _ => ?_⟩
    rw [if_neg fun h => nomatch h.1]
    exact sniff_brace hfront (rest ++ back)
  | arr items =>
    obtain ⟨rest, hrender⟩ := exists_render_arr pretty items
    refine ⟨_, hrender, fun front back hfront hback => ?_⟩
    have hshows := (shows_of_render hrender).enclose [] back List.not_mem_nil
      (hback.not_mem (by decide))
    rw [List.nil_append, List.cons_append] at hshows
    rw [List.cons_append, sniff_bracket hfront]
    refine if_congr ((Text.contains_iff.trans hshows.iff).trans ?_) rfl rfl
    exact (and_iff_right rfl).symm
  | null | bool | num | str => rcases hv with hv | hv <;> cases hv

/-- **The JSON text of an object looks like JSON**, and so does that of an array in which no text
and no key, at any depth, holds an assignment; the text of any other array looks like TOML. Blanks
around the text make no difference. So what looks like JSON is read as JSON from a file without a
known extension.

**Proof sketch.** An object begins with a brace. An array begins with a bracket, and the assignments
in its text are those of its texts and keys, since an equals sign stands within quotes only. -/
theorem sniff_render_json {v : Value} (hv : v.kind = .object ∨ v.kind = .array) (pretty : Bool) :
    ∃ text, render .json pretty v = .ok text ∧ ∀ front back, Blank front → Blank back →
      sniff (front ++ (text ++ back))
          = (if v.kind = .array ∧ v.Mentions assignment then .toml else .json)
        ∧ (¬ (v.kind = .array ∧ v.Mentions assignment) → ∀ (files : Cli.Files) (path : String),
          files path = .ok (front ++ (text ++ back)) →
          ((fileName? path.toList).bind extension?).bind ofExtension? = none →
          Cli.readDocument files path
            = (parse .json (front ++ (text ++ back))).mapError .document >>= fun w =>
              pure (w, .json)) := by
  obtain ⟨text, hrender, hsniff⟩ := exists_sniff_render_json hv pretty
  refine ⟨text, hrender, fun front back hfront hback => ⟨hsniff front back hfront hback, ?_⟩⟩
  intro hjson files path hfile hextension
  have hdetect : detect path.toList (front ++ (text ++ back)) = .json := by
    rw [detect, hextension, Option.getD_none, hsniff front back hfront hback, if_neg hjson]
  rw [Cli.readDocument_of_ok hfile, hdetect]

/-- The text of an object of which a key and a text hold an assignment, as it is printed and with a
blank in front, looks like JSON, and so does that of an array of which none does. It is read back
from a file without an extension. -/
theorem sniff_render_json_of_assignments :
    (∃ text, render .json true (.obj [("a = b", .str "c = d")]) = .ok text
      ∧ sniff (['\u00a0'] ++ (text ++ ['\n'])) = .json)
    ∧ ∃ text, render .json false (.arr [.str "a=b"]) = .ok text
      ∧ sniff ([] ++ (text ++ ['\n'])) = .json
      ∧ Cli.readDocument (fun _ => .ok ([] ++ (text ++ ['\n']))) "out/v1.0/report"
        = (parse .json ([] ++ (text ++ ['\n']))).mapError .document >>= fun w =>
          pure (w, .json) := by
  have hline : Blank ['\n'] := Text.blank_singleton rfl
  constructor
  · obtain ⟨text, hrender, hsniff⟩ :=
      sniff_render_json (v := .obj [("a = b", .str "c = d")]) (.inl rfl) true
    exact ⟨text, hrender, (hsniff _ _ (Text.blank_singleton rfl) hline).1.trans (by decide +kernel)⟩
  · obtain ⟨text, hrender, hsniff⟩ := sniff_render_json (v := .arr [.str "a=b"]) (.inr rfl) false
    obtain ⟨hjson, hread⟩ := hsniff [] _ Text.blank_nil hline
    exact ⟨text, hrender, hjson.trans (by decide +kernel), hread (by decide +kernel) _ _ rfl
      (by decide +kernel)⟩

/-- The text of an array that holds a text with an assignment does not look like JSON. It is read
back from a file without an extension as the head of a TOML table, which is another value. -/
theorem sniff_render_json_array_assignment :
    render .json false (.arr [.str "a = b"]) = .ok "[\"a = b\"]".toList
    ∧ sniff "[\"a = b\"]".toList ≠ .json
    ∧ Cli.readDocument (fun _ => .ok "[\"a = b\"]".toList) "report"
      = .ok (.obj [("a = b", .obj [])], .toml) :=
  ⟨by decide +kernel, by decide +kernel, by decide +kernel⟩

end Format

end Stencil
