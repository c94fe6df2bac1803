import Stencil.Proofs.Template.Filled
import Stencil.Proofs.Value.Texts

/-!
# Texts that render to themselves

What a template renders to can be rendered once more. It renders to itself when it is text without
opening braces around placeholders that stay, and that is what comes of a template whose literal
texts and whose values have no opening braces.

## Main definitions

* `Stencil.Template.Fixed` — the text renders to itself.
* `Stencil.Template.Reproducible` — neither literal text nor a value has an opening brace.

## Main results

* `Stencil.Template.render_text_of_plain` — plain segments whose placeholders stay.
* `Stencil.Template.Reproducible.eq_filled` — what an embedded template renders to.
* `Stencil.Template.Reproducible.fixed_of_render` — all texts of the result render to themselves.
-/

set_option autoImplicit false

namespace Stencil.Template

open Segments

variable {context : Value} {options : Options}

/-- The text renders to itself. -/
def Fixed (context : Value) (options : Options) (s : String) : Prop :=
  render context options s.toList = .ok (some (.str s))

/-- Whether the placeholders of a template are the whole of it or stand in a text. -/
def Segments.mode (t : Segments) : Mode := if t.whole?.isSome then .whole else .embedded

/-- No literal text of the template has an opening brace, and every placeholder stays or stands for
a value none of whose texts has one. -/
structure Reproducible (context : Value) (t : Segments) : Prop where
  opening_not_mem : ∀ l ∈ t.literals, '\x7b' ∉ l
  kept_or_forall : ∀ b ∈ t.bodies, ∀ p, Placeholder.parse b = .ok p → p.Kept context ∨
    ∀ v, p.outcome? (wrap b) context t.mode = some v → ∀ x ∈ v.texts, '\x7b' ∉ x.toList

instance instDecidableReproducible (context : Value) (t : Segments) :
    Decidable (Reproducible context t) :=
  decidable_of_iff ((∀ l ∈ t.literals, '\x7b' ∉ l)
      ∧ ∀ b ∈ t.bodies, ∀ p, Placeholder.parse b = .ok p → p.Kept context ∨
        ∀ v ∈ p.outcome? (wrap b) context t.mode, ∀ x ∈ v.texts, '\x7b' ∉ x.toList)
    ⟨fun ⟨hl, hb⟩ => ⟨hl, hb⟩, fun ⟨hl, hb⟩ => ⟨hl, hb⟩⟩

/-- The text of one placeholder alone is its written form. -/
theorem Segments.text_whole (b : List Char) : text ⟨[⟨[], b⟩], []⟩ = wrap b := by simp [text]

/-! ## Placeholders that stay -/

/-- Placeholders that stay fill their own places. -/
theorem Segments.filled_eq_text {t : Segments} (h : ∀ b ∈ t.bodies, Keeps context b) :
    t.filled context = t.text := by
  have hhole : ∀ g ∈ t.holes, g.before ++ replacement context g.body = g.before ++ wrap g.body :=
    fun g hg => by rw [(h _ (List.mem_map_of_mem hg)).replacement_eq]
  rw [filled, text, List.flatMap_def, List.flatMap_def, List.map_congr_left hhole]

/-- A template that can be rendered has acceptable placeholders only. -/
theorem acceptable_of_render {s : List Char} {v : Option Value}
    (h : render context options s = .ok v) : ∀ b ∈ (segments s).bodies, Acceptable options b := by
  have hnone : failure? (render context options s) = none := by rw [h, failure?_ok]
  rw [failure?_render, List.findSome?_eq_none_iff] at hnone
  exact fun b hb => failure?_prepare_eq_none_iff.1 (hnone b hb)

/-- A template all of whose placeholders are acceptable can be rendered. -/
theorem exists_render_eq_ok {s : List Char}
    (h : ∀ b ∈ (segments s).bodies, Acceptable options b) :
    ∃ v, render context options s = .ok v := by
  rw [← failure?_eq_none_iff, failure?_render, List.findSome?_eq_none_iff]
  exact fun b hb => failure?_prepare_eq_none_iff.2 (h b hb)

/-- A template that is one placeholder renders to its outcome. -/
theorem render_of_whole {s b : List Char} {p : Placeholder} (hw : (segments s).whole? = some b)
    (hp : prepare options b = .ok p) :
    render context options s = .ok (p.outcome? (wrap b) context .whole) := by
  simp only [render, hw, hp]
  rfl

/-- **Plain segments whose placeholders stay render to their text.**

**Proof sketch.** The scan finds the segments again. One placeholder alone renders to its outcome,
which is its written form; among other text every placeholder fills its own place. -/
theorem render_text_of_plain {t : Segments} (ht : t.Plain)
    (h : ∀ b ∈ t.bodies, Keeps context b ∧ Acceptable options b) :
    render context options t.text = .ok (some (.str (String.ofList t.text))) := by
  have hsegments : segments t.text = t := segments_text_of_plain ht
  cases hw : t.whole? with
  | some b =>
    rw [eq_of_whole? hw] at h ⊢
    obtain ⟨⟨p, hparse, hkept⟩, q, hq, hallowed⟩ := h b List.mem_cons_self
    rw [hparse] at hq
    cases hq
    have hwrap : (segments (wrap b)).whole? = some b := by
      rw [← text_whole, ← eq_of_whole? hw, hsegments, hw]
    rw [text_whole, render_of_whole hwrap (prepare_eq_ok_iff.2 ⟨hparse, hallowed⟩),
      hkept.outcome?_eq]
  | none =>
    rw [← hsegments] at hw
    obtain ⟨v, hv⟩ : ∃ v, render context options t.text = .ok v :=
      exists_render_eq_ok fun b hb => (h b (by rwa [hsegments] at hb)).2
    have hunshadowed : (segments t.text).Unshadowed context := by
      rw [hsegments]
      intro before g after hsplit hgoes
      have hg : g ∈ t.holes := by simp [hsplit]
      exact absurd (h _ (List.mem_map_of_mem hg)).1 hgoes
    rw [hv, eq_filled_of_render hw hunshadowed hv, hsegments,
      filled_eq_text fun b hb => (h b hb).1]

/-- A text without opening braces renders to itself. -/
theorem fixed_of_opening_not_mem {s : String} (h : '\x7b' ∉ s.toList) :
    Fixed context options s := by
  have hplain : Plain ⟨[], s.toList⟩ := ⟨by simpa [literals] using h, by simp [bodies]⟩
  have htext : text ⟨[], s.toList⟩ = s.toList := by simp [text]
  have hrender : render context options (text ⟨[], s.toList⟩)
      = .ok (some (.str (String.ofList (text ⟨[], s.toList⟩)))) :=
    render_text_of_plain hplain (by simp [bodies])
  rw [htext, String.ofList_toList] at hrender
  exact hrender

/-! ## Templates without opening braces -/

namespace Reproducible

/-- A placeholder among other text stays, or its replacement has no opening brace. -/
theorem keeps_or_opening_not_mem {t : Segments} (h : Reproducible context t) (hw : t.whole? = none)
    {b : List Char} (hb : b ∈ t.bodies) (hacceptable : Acceptable options b) :
    Keeps context b ∨ '\x7b' ∉ replacement context b := by
  obtain ⟨p, hparse, -⟩ := hacceptable
  refine (h.kept_or_forall b hb p hparse).imp (fun hkept => ⟨p, hparse, hkept⟩) fun hvalue => ?_
  have hmode : t.mode = .embedded := by simp [Segments.mode, hw]
  rw [hmode] at hvalue
  rw [replacement_of_parse hparse]
  cases houtcome : p.outcome? (wrap b) context .embedded with
  | none => exact List.not_mem_nil
  | some v => exact Value.opening_not_mem_display v (hvalue v houtcome)

/-- A template among whose literal texts and values there is no opening brace renders to its filled
text, unless it is one placeholder. -/
theorem eq_filled {s : List Char} {v : Option Value}
    (h : Reproducible context (segments s)) (hw : (segments s).whole? = none)
    (hr : render context options s = .ok v) :
    v = some (.str (String.ofList ((segments s).filled context))) := by
  refine eq_filled_of_render hw ?_ hr
  refine unshadowed_of_opening_not_mem (fun _ hb => isBody_of_mem_bodies hb) ?_ ?_
  · intro g hg
    exact h.opening_not_mem _ (List.mem_append_left _ (List.mem_map_of_mem hg))
  · intro b hb
    exact h.keeps_or_opening_not_mem hw hb (acceptable_of_render hr b hb)

/-- **All texts of what such a template renders to render to themselves.**

**Proof sketch.** The outcome of one placeholder is its written form or a value without opening
braces. The filled text of an embedded template is that of plain segments whose placeholders
stay. -/
theorem fixed_of_render {s : List Char} {v : Value} (h : Reproducible context (segments s))
    (hr : render context options s = .ok (some v)) : ∀ x ∈ v.texts, Fixed context options x := by
  have hacceptable := acceptable_of_render hr
  cases hw : (segments s).whole? with
  | some b =>
    have hb : b ∈ (segments s).bodies := by
      rw [eq_of_whole? hw]
      exact List.mem_cons_self
    obtain ⟨p, hparse, hallowed⟩ := hacceptable b hb
    rw [render_of_whole hw (prepare_eq_ok_iff.2 ⟨hparse, hallowed⟩), Except.ok.injEq] at hr
    rcases h.kept_or_forall b hb p hparse with hkept | hvalue
    · rw [hkept.outcome?_eq] at hr
      cases hr
      have hplain : Plain ⟨[⟨[], b⟩], []⟩ :=
        ⟨by simp [literals], by simpa [bodies] using isBody_of_mem_bodies hb⟩
      have hrender : render context options (wrap b)
          = .ok (some (.str (String.ofList (wrap b)))) := by
        rw [← text_whole]
        refine render_text_of_plain hplain (List.forall_mem_singleton.2 ⟨?_, ?_⟩)
        · exact ⟨p, hparse, hkept⟩
        · exact ⟨p, hparse, hallowed⟩
      intro x hx
      rw [List.mem_singleton.1 hx, Fixed, String.toList_ofList]
      exact hrender
    · have hmode : (segments s).mode = .whole := by simp [Segments.mode, hw]
      rw [hmode] at hvalue
      exact fun x hx => fixed_of_opening_not_mem (hvalue v hr x hx)
  | none =>
    have hv := h.eq_filled hw hr
    rw [Option.some_inj] at hv
    have hvalue : ∀ b ∈ (segments s).bodies, Keeps context b ∨ '\x7b' ∉ replacement context b :=
      fun b hb => h.keeps_or_opening_not_mem hw hb (hacceptable b hb)
    have hplain : ((segments s).remainder context).Plain :=
      plain_remainder (fun _ hb => isBody_of_mem_bodies hb) h.opening_not_mem hvalue
    have hrender : render context options ((segments s).remainder context).text
        = .ok (some (.str (String.ofList ((segments s).remainder context).text))) := by
      refine render_text_of_plain hplain fun b hb => ?_
      obtain ⟨hmem, hkeeps⟩ := mem_bodies_remainder_iff.1 hb
      exact ⟨hkeeps, hacceptable b hmem⟩
    intro x hx
    rw [hv, Value.texts] at hx
    rw [List.mem_singleton.1 hx, Fixed, String.toList_ofList, ← text_remainder]
    exact hrender

end Reproducible

end Stencil.Template
