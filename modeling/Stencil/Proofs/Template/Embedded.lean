import Stencil.Proofs.Template.Fault
import Stencil.Proofs.Template.Scan

/-!
# Alone and among other text

A placeholder that is the whole template renders to its value, and one among other text to the text
of its value. Two casts take the place of the placeholder into account; for any other one the value
is the same in both places.

## Main definitions

* `Stencil.Tag.CastsAlike`, `Stencil.Placeholder.CastsAlike` — the place takes no part in the cast.

## Main results

* `Stencil.Placeholder.outcome?_congr_mode` — such a placeholder has one value in both places.
* `Stencil.Template.segments_embedded` — the scan of one placeholder among other text.
* `Stencil.Template.render_embedded` — both renderings agree, up to turning the value into text.
-/

set_option autoImplicit false

namespace Stencil

/-! ## Values -/

/-- The tag casts alike alone and among other text. -/
def Tag.CastsAlike (t : Tag) : Prop := t ≠ .json ∧ t ≠ .null

instance Tag.instDecidableCastsAlike (t : Tag) : Decidable t.CastsAlike :=
  inferInstanceAs (Decidable (t ≠ .json ∧ t ≠ .null))

/-- The tags that cast the alternatives and the fallback cast alike alone and among other text. -/
structure Placeholder.CastsAlike (p : Placeholder) : Prop where
  clauses : ∀ c ∈ p.clauses, c.castTag.CastsAlike
  fallback : ∀ f ∈ p.fallback, f.castTag.CastsAlike

instance Placeholder.instDecidableCastsAlike (p : Placeholder) : Decidable p.CastsAlike :=
  decidable_of_iff ((∀ c ∈ p.clauses, c.castTag.CastsAlike)
      ∧ ∀ f ∈ p.fallback, f.castTag.CastsAlike)
    ⟨fun ⟨hc, hf⟩ => ⟨hc, hf⟩, fun ⟨hc, hf⟩ => ⟨hc, hf⟩⟩

/-- A cast that looks at its place is one by `json` or `null`. -/
theorem Value.cast_congr_mode {t : Tag} (ht : t.CastsAlike) (v : Value) (mode mode' : Mode) :
    v.cast mode t = v.cast mode' t := by
  cases t with
  | json => exact absurd rfl ht.1
  | null => exact absurd rfl ht.2
  | _ => cases v <;> rfl

namespace Placeholder

variable {p : Placeholder}

/-- The place takes no part in what resolves. -/
theorem resolve?_congr_mode (hp : p.CastsAlike) (context : Value) (mode mode' : Mode) :
    p.resolve? context mode = p.resolve? context mode' := by
  rw [resolve?, resolve?]
  refine findSome?_congr_of_mem fun c hc => ?_
  rw [Clause.resolve?, Clause.resolve?]
  cases context.get? c.path with
  | none => rfl
  | some v =>
    dsimp only
    rw [Value.cast_congr_mode (hp.clauses c hc) v mode mode']

/-- The place takes no part in what the placeholder stands for. -/
theorem outcome?_congr_mode (hp : p.CastsAlike) (text : List Char) (context : Value)
    (mode mode' : Mode) : p.outcome? text context mode = p.outcome? text context mode' := by
  rw [outcome?, outcome?, resolve?_congr_mode hp context mode mode']
  cases p.resolve? context mode' with
  | some v => rfl
  | none =>
    cases hfallback : p.fallback with
    | none => rfl
    | some f =>
      exact congrArg some (Value.cast_congr_mode (hp.fallback f hfallback) _ mode mode')

end Placeholder

namespace Template

open Segments

variable {context : Value} {options : Options} {body front back : List Char}

/-! ## One placeholder -/

/-- A placeholder in text without opening braces is the only one that a scan reports. -/
theorem segments_embedded (hbody : IsBody body) (hfront : '\x7b' ∉ front) (hback : '\x7b' ∉ back) :
    segments (front ++ (wrap body ++ back)) = ⟨[⟨front, body⟩], back⟩ := by
  have hplain : Plain ⟨[⟨front, body⟩], back⟩ := by
    constructor
    · simp [literals, hfront, hback]
    · simpa [bodies] using hbody
  have htext : text ⟨[⟨front, body⟩], back⟩ = front ++ (wrap body ++ back) := by simp [text]
  rw [← htext]
  exact segments_text_of_plain hplain

/-- A placeholder with text around it is not the whole template. -/
theorem whole?_embedded (body : List Char) (h : front ++ back ≠ []) :
    whole? ⟨[⟨front, body⟩], back⟩ = none := by
  cases front with
  | cons c r => rfl
  | nil =>
    cases back with
    | cons c r => rfl
    | nil => exact absurd rfl h

/-- Filling one placeholder in text without opening braces. -/
theorem fill_embedded (hbody : IsBody body) (hfront : '\x7b' ∉ front) :
    fill context options (front ++ (wrap body ++ back)) body
      = (prepare options body).map fun p =>
        front ++ (insertion (p.outcome? (wrap body) context .embedded) ++ back) := by
  have hspelled : ¬ wrap body <:+: front := fun h => hfront (h.subset List.mem_cons_self)
  rw [fill]
  simp only [Text.replaceFirst_append (unbordered_wrap hbody) hspelled]
  cases prepare options body <;> rfl

/-- A template that is one placeholder renders to what the placeholder stands for. -/
theorem render_wrap (hbody : IsBody body) : render context options (wrap body)
    = (prepare options body).map fun p => p.outcome? (wrap body) context .whole := by
  have hsegments : segments (wrap body) = ⟨[⟨[], body⟩], []⟩ := by
    simpa using segments_embedded hbody List.not_mem_nil List.not_mem_nil
  simp only [render, hsegments, whole?]
  cases prepare options body <;> rfl

/-- **A placeholder among other text renders to the text of what it renders to alone.** Undefined
becomes the empty text, and a failure stays the same failure. Closing braces around the placeholder
do no harm.

**Proof sketch.** The scan finds this placeholder only, and filling finds it in its own place. Its
value does not depend on the place, since neither `json` nor `null` casts it. -/
theorem render_embedded (hbody : IsBody body) (hfront : '\x7b' ∉ front) (hback : '\x7b' ∉ back)
    (hne : front ++ back ≠ [])
    (hcast : ∀ p, Placeholder.parse body = .ok p → p.CastsAlike) :
    render context options (front ++ (wrap body ++ back))
      = (render context options (wrap body)).map fun v =>
        some (.str (String.ofList (front ++ (v.elim [] Value.display ++ back)))) := by
  have hfill : render context options (front ++ (wrap body ++ back))
      = (fill context options (front ++ (wrap body ++ back)) body).map fun r =>
        some (.str (String.ofList r)) := by
    simp only [render, segments_embedded hbody hfront hback, whole?_embedded body hne, bodies,
      List.map_cons, List.map_nil, List.foldlM_cons, List.foldlM_nil]
    cases fill context options (front ++ (wrap body ++ back)) body <;> rfl
  rw [hfill, fill_embedded hbody hfront, render_wrap hbody]
  cases hprepare : prepare options body with
  | error e => rfl
  | ok p =>
    have hp := hcast p (prepare_eq_ok_iff.1 hprepare).1
    have hmode := Placeholder.outcome?_congr_mode hp (wrap body) context .embedded .whole
    simp only [Except.map, hmode]
    cases p.outcome? (wrap body) context .whole <;> rfl

/-- A found null among the items of an array, a fallback that is not needed, and a closing brace. -/
theorem render_embedded_of_items :
    let context : Value := .obj [("a", .arr [.null, .num (.int 7), .obj []])]
    let body := " a:any|b?:-:int".toList
    let front := "<".toList
    let back := "\x7d>".toList
    IsBody body ∧ '\x7b' ∉ front ∧ '\x7b' ∉ back ∧ front ++ back ≠ []
      ∧ (∀ p, Placeholder.parse body = .ok p → p.CastsAlike)
      ∧ render context {} (wrap body) = .ok (some (.arr [.null, .num (.int 7), .obj []]))
      ∧ render context {} (front ++ (wrap body ++ back))
        = .ok (some (.str "<,7,[object Object]\x7d>")) := by
  intro context body front back
  have hbody : IsBody body := ⟨by decide +kernel, List.all_eq_true.1 (by decide +kernel)⟩
  have hfront : '\x7b' ∉ front := by decide +kernel
  have hback : '\x7b' ∉ back := by decide +kernel
  have hne : front ++ back ≠ [] := by decide +kernel
  have hcast : ∀ p, Placeholder.parse body = .ok p → p.CastsAlike := by decide +kernel
  have halone : render context {} (wrap body)
      = .ok (some (.arr [.null, .num (.int 7), .obj []])) := eq_ok_of_toOption (by decide +kernel)
  have hamong : render context {} (front ++ (wrap body ++ back))
      = (render context {} (wrap body)).map fun v =>
        some (.str (String.ofList (front ++ (v.elim [] Value.display ++ back)))) :=
    render_embedded hbody hfront hback hne hcast
  rw [halone] at hamong
  refine ⟨hbody, hfront, hback, hne, hcast, halone, hamong.trans ?_⟩
  exact eq_ok_of_toOption (by decide +kernel)

end Template

end Stencil
