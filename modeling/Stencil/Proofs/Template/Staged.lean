import Stencil.Proofs.Template.Fixed
import Stencil.Proofs.Tree.Lookups

/-!
# Rendering in stages

A template can be rendered in one context first, and what comes of it in a second one. As long as
each placeholder has one path and stays where that path leads nowhere, this is rendering once, in a
context that holds what the first one holds, or else what the second one holds. The first stage
leaves the placeholders that it cannot fill in, in text that spells no other ones.

## Main definitions

* `Stencil.Value.Overlaid` — a context holds what a first one holds, or else what a second one
  holds.
* `Stencil.Placeholder.Bare` — one path, and nothing that stands in for it.
* `Stencil.Template.Staged` — what one placeholder contributes to two stages.

## Main results

* `Stencil.Template.Segments.filled_remainder` — filling in what is left.
* `Stencil.Template.Segments.whole?_remainder` — what is left of a template that is not one
  placeholder is not one placeholder.
* `Stencil.Template.render_in_stages` — two stages are one rendering.
-/

set_option autoImplicit false

namespace Stencil

variable {context context' first second both : Value}

/-- At each of the paths, a context holds what the first one holds there, or else what the second
one holds there. -/
def Value.Overlaid (paths : List String) (first second both : Value) : Prop :=
  ∀ path ∈ paths, both.get? path = (first.get? path).or (second.get? path)

instance Value.instDecidableOverlaid (paths : List String) (first second both : Value) :
    Decidable (Value.Overlaid paths first second both) :=
  inferInstanceAs (Decidable
    (∀ path ∈ paths, both.get? path = (first.get? path).or (second.get? path)))

/-! ## Placeholders with one path -/

namespace Placeholder

variable {p : Placeholder}

/-- Of two contexts that agree on its paths, a placeholder stays in both or in neither. -/
theorem Kept.congr (h : Value.AgreeOn p.paths context context') (hkept : p.Kept context) :
    p.Kept context' where
  unresolved := by
    have hnone := (resolve?_eq_none_iff p context .whole).2 hkept.unresolved
    rwa [resolve?_congr h, resolve?_eq_none_iff] at hnone
  fallback_eq_none := hkept.fallback_eq_none
  allowsUndefined_eq_false := hkept.allowsUndefined_eq_false
  allowsNull_eq_false := hkept.allowsNull_eq_false

/-- One alternative without a fallback and without modifiers: where its path leads nowhere, the
placeholder stays. -/
structure Bare (p : Placeholder) : Prop where
  length_clauses : p.clauses.length = 1
  fallback_eq_none : p.fallback = none
  allowsUndefined_eq_false : p.allowsUndefined = false
  allowsNull_eq_false : p.allowsNull = false
  ignoresEmptyStr_eq_false : p.ignoresEmptyStr = false

instance instDecidableBare (p : Placeholder) : Decidable p.Bare :=
  decidable_of_iff (p.clauses.length = 1 ∧ p.fallback = none ∧ p.allowsUndefined = false
      ∧ p.allowsNull = false ∧ p.ignoresEmptyStr = false)
    ⟨fun ⟨hc, hf, hu, hn, he⟩ => ⟨hc, hf, hu, hn, he⟩,
      fun ⟨hc, hf, hu, hn, he⟩ => ⟨hc, hf, hu, hn, he⟩⟩

/-- A bare placeholder stays exactly when nothing is found at its path. -/
theorem Bare.kept_iff (hp : p.Bare) (mode : Mode) :
    p.Kept context ↔ p.resolve? context mode = none := by
  rw [resolve?_eq_none_iff]
  constructor
  · exact Kept.unresolved
  · intro h
    exact ⟨h, hp.fallback_eq_none, hp.allowsUndefined_eq_false, hp.allowsNull_eq_false⟩

/-- A bare placeholder sees one of two contexts through a third one that is overlaid: the second
one if it stays in the first one, and else the first one. -/
theorem Bare.agreeOn_of_overlaid (hp : p.Bare) (h : Value.Overlaid p.paths first second both) :
    (p.Kept first → Value.AgreeOn p.paths both second)
      ∧ (¬ p.Kept first → Value.AgreeOn p.paths both first) := by
  obtain ⟨c, hc⟩ := List.length_eq_one_iff.1 hp.length_clauses
  have hpaths : p.paths = [c.path] := by rw [paths, hc, List.map_singleton]
  have hkept : p.Kept first ↔ first.get? c.path = none := by
    rw [hp.kept_iff .whole, resolve?, hc, List.findSome?_singleton,
      Clause.resolve?_eq_none_iff, hp.ignoresEmptyStr_eq_false]
    simp [Option.eq_none_iff_forall_ne_some]
  rw [Value.Overlaid, hpaths, List.forall_mem_singleton] at h
  rw [Value.AgreeOn, Value.AgreeOn, hpaths, List.forall_mem_singleton, List.forall_mem_singleton,
    hkept, h]
  cases first.get? c.path <;> simp

end Placeholder

namespace Template

open Segments

variable {options : Options} {body : List Char} {p : Placeholder}

/-- What takes the place of a placeholder depends on the paths that it names only. -/
theorem replacement_congr (h : Value.AgreeOn (paths body) context context') :
    replacement context body = replacement context' body := by
  unfold replacement
  unfold paths at h
  cases hparse : Placeholder.parse body with
  | error e => rfl
  | ok p =>
    rw [hparse] at h
    show insertion _ = insertion _
    rw [Placeholder.outcome?_congr h]

/-- Of two contexts that agree on the paths that it names, a placeholder stays in both or in
neither. -/
theorem Keeps.congr (h : Value.AgreeOn (paths body) context context')
    (hkeeps : Keeps context body) : Keeps context' body := by
  obtain ⟨p, hparse, hkept⟩ := hkeeps
  rw [paths, hparse] at h
  exact ⟨p, hparse, hkept.congr h⟩

/-- What an opening brace comes from depends on the paths that a placeholder names only. -/
theorem keeps_or_opening_not_mem_congr (h : Value.AgreeOn (paths body) context context')
    (hvalue : Keeps context body ∨ '\x7b' ∉ replacement context body) :
    Keeps context' body ∨ '\x7b' ∉ replacement context' body := by
  rw [← replacement_congr h]
  exact hvalue.imp_left (Keeps.congr h)

/-- A bare placeholder among other text stays, or the text of what is found takes its place. -/
theorem keeps_or_exists_value (hparse : Placeholder.parse body = .ok p) (hp : p.Bare) :
    Keeps context body ∨ ∃ v, p.resolve? context .embedded = some v
      ∧ replacement context body = v.display := by
  cases hv : p.resolve? context .embedded with
  | none => exact Or.inl ⟨p, hparse, (hp.kept_iff .embedded).2 hv⟩
  | some v =>
    refine Or.inr ⟨v, rfl, ?_⟩
    rw [replacement_of_parse hparse, Placeholder.outcome?, hv]
    rfl

/-- What one placeholder contributes to two stages: a third context holds at its paths what the
context of the stage that fills it in holds there; the text that takes its place has no opening
brace; and the first stage puts no empty text in its place. -/
structure Staged (first second both : Value) (body : List Char) : Prop where
  agreeOn_second : Keeps first body → Value.AgreeOn (paths body) both second
  agreeOn_first : ¬ Keeps first body → Value.AgreeOn (paths body) both first
  keeps_or_opening_not_mem : Keeps both body ∨ '\x7b' ∉ replacement both body
  replacement_ne_nil : ¬ Keeps first body → replacement first body ≠ []

/-- A bare placeholder contributes to two stages what is found at its path. -/
theorem staged_of_parse (hparse : Placeholder.parse body = .ok p) (hp : p.Bare)
    (hpaths : Value.Overlaid (paths body) first second both)
    (hboth : ∀ v ∈ p.resolve? both .embedded, '\x7b' ∉ v.display)
    (hfirst : ∀ v ∈ p.resolve? first .embedded, v.display ≠ []) :
    Staged first second both body := by
  have hkeeps : Keeps first body ↔ p.Kept first := by simp [Keeps, hparse]
  have heq : paths body = p.paths := by rw [paths, hparse]
  rw [heq] at hpaths
  refine ⟨?_, ?_, ?_, ?_⟩
  · rw [heq, hkeeps]
    exact (hp.agreeOn_of_overlaid hpaths).1
  · rw [heq, hkeeps]
    exact (hp.agreeOn_of_overlaid hpaths).2
  · refine (keeps_or_exists_value hparse hp).imp_right ?_
    rintro ⟨v, hv, hreplacement⟩
    rw [hreplacement]
    exact hboth v hv
  · intro hk
    obtain ⟨v, hv, hreplacement⟩ := (keeps_or_exists_value hparse hp).resolve_left hk
    rw [hreplacement]
    exact hfirst v hv

namespace Staged

/-- The first stage brings in no opening brace. -/
theorem keeps_first_or (h : Staged first second both body) :
    Keeps first body ∨ '\x7b' ∉ replacement first body := by
  by_cases hk : Keeps first body
  · exact Or.inl hk
  · exact keeps_or_opening_not_mem_congr (h.agreeOn_first hk) h.keeps_or_opening_not_mem

/-- The second stage brings in no opening brace in the place of what the first one has left. -/
theorem keeps_second_or (h : Staged first second both body) (hk : Keeps first body) :
    Keeps second body ∨ '\x7b' ∉ replacement second body :=
  keeps_or_opening_not_mem_congr (h.agreeOn_second hk) h.keeps_or_opening_not_mem

end Staged

/-! ## What the first stage leaves -/

namespace Segments

variable {t : Segments}

/-- Literal text in front stays in front. -/
theorem filled_prepend (l : List Char) (t : Segments) :
    (t.prepend l).filled context = l ++ t.filled context := by
  obtain ⟨_ | ⟨h, holes⟩, tail⟩ := t <;> simp [prepend, filled]

/-- Filling in what the first stage leaves is filling in the template. -/
theorem filled_remainder (hstaged : ∀ b ∈ t.bodies, Staged first second both b) :
    (t.remainder first).filled second = t.filled both := by
  obtain ⟨holes, tail⟩ := t
  induction holes with
  | nil => rfl
  | cons h holes ih =>
    obtain ⟨hh, hholes⟩ := List.forall_mem_cons.1 hstaged
    have hfilled (context : Value) (u : Segments) : filled context ⟨h :: u.holes, u.tail⟩
        = h.before ++ (replacement context h.body ++ filled context u) := by
      simp [filled]
    have hboth := hfilled both ⟨holes, tail⟩
    rw [← ih hholes] at hboth
    rw [hboth]
    by_cases hk : Keeps first h.body
    · rw [remainder_cons_of_keeps hk, hfilled, replacement_congr (hh.agreeOn_second hk)]
    · rw [remainder_cons_of_not_keeps hk, filled_prepend, replacement_congr (hh.agreeOn_first hk),
        List.append_assoc]

/-- Where no replacement is empty, only the empty template has an empty filled text. -/
theorem eq_nil_of_filled_eq_nil
    (hne : ∀ b ∈ t.bodies, ¬ Keeps context b → replacement context b ≠ [])
    (h : t.filled context = []) : t = ⟨[], []⟩ := by
  obtain ⟨holes, tail⟩ := t
  cases holes with
  | nil => exact congrArg (Segments.mk []) h
  | cons g holes =>
    have hreplacement : replacement context g.body = [] := by
      simp only [filled, List.flatMap_cons, List.append_eq_nil_iff] at h
      exact h.1.1.2
    by_cases hk : Keeps context g.body
    · rw [hk.replacement_eq] at hreplacement
      cases hreplacement
    · exact absurd hreplacement (hne _ List.mem_cons_self hk)

/-- Behind literal text, no placeholder is the whole template. -/
theorem whole?_prepend {l : List Char} (hl : l ≠ []) (t : Segments) :
    (t.prepend l).whole? = none := by
  obtain ⟨c, r, rfl⟩ := List.exists_cons_of_ne_nil hl
  obtain ⟨_ | ⟨h, holes⟩, tail⟩ := t <;> rfl

/-- What is left of a template that is not one placeholder is not one placeholder, where no
replacement is empty.

**Proof sketch.** A replacement in front leaves text there. If the first placeholder stays and is
all that is left, then the filled text of the others is empty, so that there are none. -/
theorem whole?_remainder (hw : t.whole? = none)
    (hne : ∀ b ∈ t.bodies, ¬ Keeps context b → replacement context b ≠ []) :
    (t.remainder context).whole? = none := by
  obtain ⟨holes, tail⟩ := t
  cases holes with
  | nil => rfl
  | cons h holes =>
    by_cases hk : Keeps context h.body
    · rw [remainder_cons_of_keeps hk, Option.eq_none_iff_forall_ne_some]
      intro body hwhole
      have hleft := eq_of_whole? hwhole
      rw [Segments.mk.injEq, List.cons.injEq] at hleft
      obtain ⟨⟨rfl, hholes⟩, htail⟩ := hleft
      have hfilled : filled context ⟨holes, tail⟩ = [] := by
        rw [← text_remainder, text, hholes, htail]
        rfl
      have hnil : (⟨holes, tail⟩ : Segments) = ⟨[], []⟩ :=
        eq_nil_of_filled_eq_nil (fun b hb => hne b (List.mem_cons_of_mem _ hb)) hfilled
      cases hnil
      cases hw
    · have hfront : h.before ++ replacement context h.body ≠ [] :=
        List.append_ne_nil_of_right_ne_nil _ (hne _ List.mem_cons_self hk)
      rw [remainder_cons_of_not_keeps hk, whole?_prepend hfront]

end Segments

/-! ## Both stages -/

/-- A template with text around acceptable placeholders renders to its filled text, where neither
its literal texts nor the replacements have an opening brace. -/
theorem render_of_acceptable {s : List Char} (hw : (segments s).whole? = none)
    (hliteral : ∀ l ∈ (segments s).literals, '\x7b' ∉ l)
    (hvalue : ∀ b ∈ (segments s).bodies, Keeps context b ∨ '\x7b' ∉ replacement context b)
    (hacceptable : ∀ b ∈ (segments s).bodies, Acceptable options b) :
    render context options s
      = .ok (some (.str (String.ofList ((segments s).filled context)))) := by
  obtain ⟨v, hv⟩ : ∃ v, render context options s = .ok v := exists_render_eq_ok hacceptable
  have hs : (segments s).Unshadowed context := by
    refine unshadowed_of_opening_not_mem (fun b hb => isBody_of_mem_bodies hb) ?_ hvalue
    exact fun h hh => hliteral _ (List.mem_append_left _ (List.mem_map_of_mem hh))
  rw [hv, eq_filled_of_render hw hs hv]

/-- In the second context, the text that the first stage leaves renders to the filled text of the
template.

**Proof sketch.** A scan of the text finds what the first stage has left, which is not one
placeholder. Its placeholders are some of those of the template, and the second stage brings in no
opening brace in their places. -/
theorem render_filled {s : List Char} (hw : (segments s).whole? = none)
    (hliteral : ∀ l ∈ (segments s).literals, '\x7b' ∉ l)
    (hacceptable : ∀ b ∈ (segments s).bodies, Acceptable options b)
    (hstaged : ∀ b ∈ (segments s).bodies, Staged first second both b) :
    render second options ((segments s).filled first)
      = .ok (some (.str (String.ofList ((segments s).filled both)))) := by
  have hplain : ((segments s).remainder first).Plain :=
    plain_remainder (fun b hb => isBody_of_mem_bodies hb) hliteral
      fun b hb => (hstaged b hb).keeps_first_or
  have hleft : segments ((segments s).filled first) = (segments s).remainder first := by
    rw [← text_remainder, segments_text_of_plain hplain]
  rw [← filled_remainder hstaged, ← hleft]
  apply render_of_acceptable
  · rw [hleft]
    exact whole?_remainder hw fun b hb => (hstaged b hb).replacement_ne_nil
  · rw [hleft]
    exact hplain.opening_not_mem
  · intro b hb
    rw [hleft, mem_bodies_remainder_iff] at hb
    exact (hstaged b hb.1).keeps_second_or hb.2
  · intro b hb
    rw [hleft, mem_bodies_remainder_iff] at hb
    exact hacceptable b hb.1

/-- **Two stages are one rendering.** A template that is not one placeholder has no opening brace in
its literal texts, and each of its placeholders is bare. A third context holds at their paths what
the first one holds, or else what the second one holds; no text of a value found there has an
opening brace, and none of a value found in the first context is empty. Then the template renders to
a text in the first context exactly when it can be rendered in the third one, and rendering this
text in the second context is rendering the template in the third one.

**Proof sketch.** Whether a template can be rendered is not up to the context. If it can, then its
text in the first context is its filled text, which `render_filled` renders in the second one. -/
theorem render_in_stages {s : List Char} (hw : (segments s).whole? = none)
    (hliteral : ∀ l ∈ (segments s).literals, '\x7b' ∉ l)
    (hbare : ∀ b ∈ (segments s).bodies, ∀ p, Placeholder.parse b = .ok p → p.Bare)
    (hpaths : ∀ b ∈ (segments s).bodies, Value.Overlaid (paths b) first second both)
    (hboth : ∀ b ∈ (segments s).bodies, ∀ p, Placeholder.parse b = .ok p →
      ∀ v ∈ p.resolve? both .embedded, '\x7b' ∉ v.display)
    (hfirst : ∀ b ∈ (segments s).bodies, ∀ p, Placeholder.parse b = .ok p →
      ∀ v ∈ p.resolve? first .embedded, v.display ≠ []) :
    ((∃ u, render first options s = .ok (some (.str u)))
        ↔ ∃ v, render both options s = .ok v)
      ∧ ∀ u, render first options s = .ok (some (.str u)) →
        render second options u.toList = render both options s := by
  by_cases hacceptable : ∀ b ∈ (segments s).bodies, Acceptable options b
  · have hstaged : ∀ b ∈ (segments s).bodies, Staged first second both b := by
      intro b hb
      obtain ⟨p, hparse, -⟩ := hacceptable b hb
      exact staged_of_parse hparse (hbare b hb p hparse) (hpaths b hb) (hboth b hb p hparse)
        (hfirst b hb p hparse)
    have hone := render_of_acceptable hw hliteral (fun b hb => (hstaged b hb).keeps_first_or)
      hacceptable
    have honce := render_of_acceptable hw hliteral
      (fun b hb => (hstaged b hb).keeps_or_opening_not_mem) hacceptable
    refine ⟨iff_of_true ⟨_, hone⟩ ⟨_, honce⟩, fun u hu => ?_⟩
    rw [hone] at hu
    cases hu
    rw [String.toList_ofList, render_filled hw hliteral hacceptable hstaged, honce]
  · have hnone (context : Value) (v : Option Value) : render context options s ≠ .ok v :=
      fun hr => hacceptable (acceptable_of_render hr)
    exact ⟨⟨fun ⟨u, hu⟩ => absurd hu (hnone first _), fun ⟨v, hv⟩ => absurd hv (hnone both v)⟩,
      fun u hu => absurd hu (hnone first _)⟩

/-- Adjacent placeholders, one of them written twice, a value with closing braces, a path that leads
somewhere in both contexts and one that does in neither; only the second stage puts in an empty
text. -/
theorem render_in_stages_of_adjacent_placeholders :
    let first : Value := .obj [("a", .str "x\x7d\x7d")]
    let second : Value := .obj [("a", .str "y"), ("b", .str ""), ("c", .arr [.null, .bool true])]
    let both : Value := .obj [
      ("c", .arr [.null, .bool true]), ("b", .str ""), ("a", .str "x\x7d\x7d")]
    let s := ("\x7b\x7ba\x7d\x7d\x7b\x7bb\x7d\x7d\x7b\x7bk\x7d\x7d"
      ++ "\x7b\x7ba\x7d\x7d\x7b\x7b c:json \x7d\x7d").toList
    let u := "x\x7d\x7d\x7b\x7bb\x7d\x7d\x7b\x7bk\x7d\x7dx\x7d\x7d\x7b\x7b c:json \x7d\x7d"
    (segments s).whole? = none ∧ (∀ l ∈ (segments s).literals, '\x7b' ∉ l)
      ∧ (∀ b ∈ (segments s).bodies, ∀ p, Placeholder.parse b = .ok p → p.Bare)
      ∧ (∀ b ∈ (segments s).bodies, Value.Overlaid (paths b) first second both)
      ∧ (∀ b ∈ (segments s).bodies, ∀ p, Placeholder.parse b = .ok p →
        ∀ v ∈ p.resolve? both .embedded, '\x7b' ∉ v.display)
      ∧ (∀ b ∈ (segments s).bodies, ∀ p, Placeholder.parse b = .ok p →
        ∀ v ∈ p.resolve? first .embedded, v.display ≠ [])
      ∧ render first {} s = .ok (some (.str u)) ∧ render second {} u.toList = render both {} s
      ∧ render both {} s = .ok (some (.str "x\x7d\x7d\x7b\x7bk\x7d\x7dx\x7d\x7d,true")) := by
  intro first second both s u
  have hw : (segments s).whole? = none := by decide +kernel
  have hliteral : ∀ l ∈ (segments s).literals, '\x7b' ∉ l := by decide +kernel
  have hbare : ∀ b ∈ (segments s).bodies, ∀ p, Placeholder.parse b = .ok p → p.Bare := by
    decide +kernel
  have hpaths : ∀ b ∈ (segments s).bodies, Value.Overlaid (paths b) first second both := by
    decide +kernel
  have hboth : ∀ b ∈ (segments s).bodies, ∀ p, Placeholder.parse b = .ok p →
      ∀ v ∈ p.resolve? both .embedded, '\x7b' ∉ v.display := by decide +kernel
  have hfirst : ∀ b ∈ (segments s).bodies, ∀ p, Placeholder.parse b = .ok p →
      ∀ v ∈ p.resolve? first .embedded, v.display ≠ [] := by decide +kernel
  have hone : render first {} s = .ok (some (.str u)) := eq_ok_of_toOption (by decide +kernel)
  have hstages : ∀ u, render first {} s = .ok (some (.str u)) →
      render second {} u.toList = render both {} s :=
    (render_in_stages hw hliteral hbare hpaths hboth hfirst).2
  exact ⟨hw, hliteral, hbare, hpaths, hboth, hfirst, hone, hstages u hone,
    eq_ok_of_toOption (by decide +kernel)⟩

end Template

end Stencil
