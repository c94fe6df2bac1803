import Stencil.Proofs.Placeholder.Kept
import Stencil.Proofs.Template.Fault
import Stencil.Proofs.Template.Scan

/-!
# Placeholders among other text

What a template with text around its placeholders renders to. The rendering looks each placeholder
up in a text that earlier values have already changed; it finds the placeholder in its own place
unless the text assembled in front of it spells the same placeholder once more.

## Main definitions

* `Stencil.Template.replacement` — the text that takes the place of a placeholder.
* `Stencil.Template.Keeps` — a context leaves a placeholder as it is written.
* `Stencil.Template.Segments.filled` — the literal texts with the replacements between them.
* `Stencil.Template.Segments.Unshadowed` — no placeholder that goes is spelled once more in front of
  its place.
* `Stencil.Template.Segments.remainder` — the placeholders that stay, in the filled text.

## Main results

* `Stencil.Template.foldlM_fill` — filling placeholder after placeholder.
* `Stencil.Template.Segments.text_remainder`, `Stencil.Template.Segments.plain_remainder` — the
  filled text as segments of its own.
* `Stencil.Template.Segments.unshadowed_of_opening_not_mem` — text and values without opening braces
  spell no placeholder.
* `Stencil.Template.render_eq_filled` — each value lands in the place of its own placeholder.
-/

set_option autoImplicit false

namespace Stencil.Template

/-! ## One placeholder -/

/-- The text that takes the place of the placeholder with this body in a text around it. -/
def replacement (context : Value) (body : List Char) : List Char :=
  match Placeholder.parse body with
  | .ok p => insertion (p.outcome? (wrap body) context .embedded)
  | .error _ => wrap body

/-- A body that can be read is replaced by the text of its outcome. -/
theorem replacement_of_parse {context : Value} {body : List Char} {p : Placeholder}
    (h : Placeholder.parse body = .ok p) :
    replacement context body = insertion (p.outcome? (wrap body) context .embedded) := by
  rw [replacement, h]

/-- The placeholder with this body stays in the context as it is written. -/
def Keeps (context : Value) (body : List Char) : Prop :=
  ∃ p, Placeholder.parse body = .ok p ∧ p.Kept context

instance instDecidableKeeps (context : Value) (body : List Char) :
    Decidable (Keeps context body) :=
  match hparse : Placeholder.parse body with
  | .ok p => decidable_of_iff (p.Kept context) (by simp [Keeps, hparse])
  | .error _ => isFalse (by simp [Keeps, hparse])

/-- What stays takes its own place. -/
theorem Keeps.replacement_eq {context : Value} {body : List Char} (h : Keeps context body) :
    replacement context body = wrap body := by
  obtain ⟨p, hparse, hkept⟩ := h
  rw [replacement_of_parse hparse, hkept.outcome?_eq]
  exact String.toList_ofList

/-- Filling puts the replacement where the placeholder is found first. -/
theorem eq_replaceFirst_of_fill {context : Value} {options : Options} {text body r : List Char}
    (h : fill context options text body = .ok r) :
    r = Text.replaceFirst (wrap body) (replacement context body) text := by
  obtain ⟨p, hp, h⟩ := bind_eq_ok_iff.1 h
  cases h
  rw [replacement_of_parse (prepare_eq_ok_iff.1 hp).1]

/-! ## The text with all replacements -/

namespace Segments

/-- The literal texts with the replacements between them. -/
def filled (context : Value) (t : Segments) : List Char :=
  t.holes.flatMap (fun h => h.before ++ replacement context h.body) ++ t.tail

/-- No placeholder that goes is spelled in the text in front of its place, with the literal texts
and the replacements that stand there. -/
def Unshadowed (context : Value) (t : Segments) : Prop :=
  ∀ before h after, t.holes = before ++ h :: after → ¬ Keeps context h.body →
    ¬ wrap h.body <:+: filled context ⟨before, h.before⟩

end Segments

open Segments

/-- **Filling placeholder after placeholder fills each one in its own place.**

**Proof sketch.** By induction on the placeholders that are left, with the ones that are done in
front of them. A placeholder that stays is replaced by itself, wherever it is found. Any other one
is found in its own place, since it does not overlap itself and is not spelled in front. -/
theorem foldlM_fill {context : Value} {options : Options} (done left : List Hole)
    (tail : List Char) {r : List Char} (hbody : ∀ h ∈ left, IsBody h.body)
    (hs : Unshadowed context ⟨done ++ left, tail⟩)
    (hr : (left.map Hole.body).foldlM (fill context options)
      (filled context ⟨done, text ⟨left, tail⟩⟩) = .ok r) :
    r = filled context ⟨done ++ left, tail⟩ := by
  induction left generalizing done with
  | nil =>
    cases hr
    simp [text]
  | cons h left ih =>
    rw [List.map_cons, List.foldlM_cons] at hr
    obtain ⟨next, hfill, hr⟩ := bind_eq_ok_iff.1 hr
    have htext : filled context ⟨done, text ⟨h :: left, tail⟩⟩
        = filled context ⟨done, h.before⟩ ++ (wrap h.body ++ text ⟨left, tail⟩) := by
      simp [filled, text]
    have hnext : next = filled context ⟨done ++ [h], text ⟨left, tail⟩⟩ := by
      rw [eq_replaceFirst_of_fill hfill]
      by_cases hk : Keeps context h.body
      · rw [hk.replacement_eq, Text.replaceFirst_self, htext]
        simp [filled, hk.replacement_eq]
      · have hfront := hs done h left rfl hk
        rw [htext, Text.replaceFirst_append (unbordered_wrap (hbody h List.mem_cons_self)) hfront]
        simp [filled]
    rw [hnext] at hr
    have hassoc : done ++ h :: left = done ++ [h] ++ left := by simp
    rw [hassoc] at hs ⊢
    exact ih (done ++ [h]) (fun g hg => hbody g (List.mem_cons_of_mem h hg)) hs hr

/-! ## What is left of a template -/

section Remainder

variable {context : Value} {h : Hole} {holes : List Hole} {tail : List Char}

/-- What is left of a template once a context has been filled in: the placeholders that stay, with
the replacements of the other ones among the literal texts. -/
def Segments.remainder (context : Value) (t : Segments) : Segments :=
  t.holes.foldr
    (fun h u => if Keeps context h.body then ⟨h :: u.holes, u.tail⟩
      else u.prepend (h.before ++ replacement context h.body))
    ⟨[], t.tail⟩

/-- A placeholder that stays is the first one that is left. -/
theorem Segments.remainder_cons_of_keeps (hk : Keeps context h.body) :
    remainder context ⟨h :: holes, tail⟩
      = ⟨h :: (remainder context ⟨holes, tail⟩).holes, (remainder context ⟨holes, tail⟩).tail⟩ :=
  if_pos hk

/-- A placeholder that goes becomes literal text in front of what is left of the others. -/
theorem Segments.remainder_cons_of_not_keeps (hk : ¬ Keeps context h.body) :
    remainder context ⟨h :: holes, tail⟩
      = prepend (h.before ++ replacement context h.body) (remainder context ⟨holes, tail⟩) :=
  if_neg hk

/-- The text of what is left is the filled text. -/
theorem Segments.text_remainder (context : Value) (t : Segments) :
    (t.remainder context).text = t.filled context := by
  obtain ⟨holes, tail⟩ := t
  induction holes with
  | nil => rfl
  | cons h holes ih =>
    have hfilled : filled context ⟨h :: holes, tail⟩
        = h.before ++ (replacement context h.body ++ filled context ⟨holes, tail⟩) := by
      simp [filled]
    rw [hfilled, ← ih]
    by_cases hk : Keeps context h.body
    · rw [remainder_cons_of_keeps hk, hk.replacement_eq]
      simp [text]
    · rw [remainder_cons_of_not_keeps hk, text_prepend, List.append_assoc]

/-- The placeholders that are left are those that stay, in their order. -/
theorem Segments.bodies_remainder (context : Value) (t : Segments) :
    (t.remainder context).bodies = t.bodies.filter fun b => Keeps context b := by
  obtain ⟨holes, tail⟩ := t
  induction holes with
  | nil => rfl
  | cons h holes ih =>
    have hbodies : bodies ⟨h :: holes, tail⟩ = h.body :: bodies ⟨holes, tail⟩ := rfl
    rw [hbodies, List.filter_cons, ← ih]
    by_cases hk : Keeps context h.body
    · rw [remainder_cons_of_keeps hk, if_pos (decide_eq_true hk)]
      rfl
    · rw [remainder_cons_of_not_keeps hk, bodies_prepend, if_neg (by simpa using hk)]

/-- A placeholder that is left is one of the template, and stays. -/
theorem Segments.mem_bodies_remainder_iff {t : Segments} {b : List Char} :
    b ∈ (t.remainder context).bodies ↔ b ∈ t.bodies ∧ Keeps context b := by
  rw [bodies_remainder, List.mem_filter, decide_eq_true_iff]

/-- Where neither the literal texts nor the replacements have an opening brace, the literal texts of
what is left have none.

**Proof sketch.** By induction on the placeholders, from the right: one that stays becomes a segment
of its own, and any other one becomes literal text in front of what follows. -/
theorem Segments.plain_remainder {t : Segments} (hbody : ∀ b ∈ t.bodies, IsBody b)
    (hliteral : ∀ l ∈ t.literals, '\x7b' ∉ l)
    (hvalue : ∀ b ∈ t.bodies, Keeps context b ∨ '\x7b' ∉ replacement context b) :
    (t.remainder context).Plain := by
  refine ⟨?_, fun b hb => hbody b (mem_bodies_remainder_iff.1 hb).1⟩
  obtain ⟨holes, tail⟩ := t
  induction holes with
  | nil => exact hliteral
  | cons h holes ih =>
    have hrest : ∀ l ∈ (remainder context ⟨holes, tail⟩).literals, '\x7b' ∉ l :=
      ih (fun b hb => hbody b (List.mem_cons_of_mem _ hb))
        (fun l hl => hliteral l (List.mem_cons_of_mem _ hl))
        (fun b hb => hvalue b (List.mem_cons_of_mem _ hb))
    have hbefore : '\x7b' ∉ h.before := hliteral _ List.mem_cons_self
    by_cases hk : Keeps context h.body
    · rw [remainder_cons_of_keeps hk]
      exact List.forall_mem_cons.2 ⟨hbefore, hrest⟩
    · rw [remainder_cons_of_not_keeps hk]
      refine opening_not_mem_prepend ?_ hrest
      rw [List.mem_append, not_or]
      exact ⟨hbefore, (hvalue _ List.mem_cons_self).resolve_left hk⟩

end Remainder

/-- Where neither the literal texts in front of the placeholders nor the replacements have an
opening brace, no placeholder that goes is spelled in front of its place.

**Proof sketch.** The text in front is that of plain segments, in which a scan finds whatever is
spelled, and it finds only placeholders that stay. -/
theorem Segments.unshadowed_of_opening_not_mem {context : Value} {t : Segments}
    (hbody : ∀ b ∈ t.bodies, IsBody b) (hliteral : ∀ h ∈ t.holes, '\x7b' ∉ h.before)
    (hvalue : ∀ b ∈ t.bodies, Keeps context b ∨ '\x7b' ∉ replacement context b) :
    t.Unshadowed context := by
  intro before h after hsplit hk hspelled
  have hmem : ∀ g ∈ before, g ∈ t.holes := fun g hg => by simp [hsplit, hg]
  have hbodies : ∀ b ∈ bodies ⟨before, h.before⟩, b ∈ t.bodies := fun b hb => by
    obtain ⟨g, hg, rfl⟩ := List.mem_map.1 hb
    exact List.mem_map_of_mem (hmem g hg)
  have hh : h ∈ t.holes := by simp [hsplit]
  have hfront : ∀ l ∈ literals ⟨before, h.before⟩, '\x7b' ∉ l := by
    intro l hl
    rcases List.mem_append.1 hl with hl | hl
    · obtain ⟨g, hg, rfl⟩ := List.mem_map.1 hl
      exact hliteral g (hmem g hg)
    · rw [List.mem_singleton.1 hl]
      exact hliteral h hh
  have hplain : (remainder context ⟨before, h.before⟩).Plain :=
    plain_remainder (fun b hb => hbody b (hbodies b hb)) hfront fun b hb => hvalue b (hbodies b hb)
  rw [← text_remainder] at hspelled
  have hfound := mem_bodies_segments_of_infix (hbody _ (List.mem_map_of_mem hh)) hspelled
  rw [segments_text_of_plain hplain] at hfound
  exact hk (mem_bodies_remainder_iff.1 hfound).2

/-! ## Rendering -/

/-- A template with text around its placeholders renders to its filled text, unless a placeholder
that goes is spelled once more in front of its place. -/
theorem eq_filled_of_render {context : Value} {options : Options} {s : List Char}
    {v : Option Value} (hw : (segments s).whole? = none) (hs : (segments s).Unshadowed context)
    (hr : render context options s = .ok v) :
    v = some (.str (String.ofList ((segments s).filled context))) := by
  simp only [render, hw] at hr
  obtain ⟨r, hfold, hr⟩ := bind_eq_ok_iff.1 hr
  cases hr
  have hstart : filled context ⟨[], text ⟨(segments s).holes, (segments s).tail⟩⟩ = s :=
    text_segments s
  have hbody : ∀ h ∈ (segments s).holes, IsBody h.body := fun h hh =>
    isBody_of_mem_bodies (List.mem_map_of_mem hh)
  have hfilled : r = (segments s).filled context :=
    foldlM_fill [] _ _ hbody hs (by rw [hstart]; exact hfold)
  rw [hfilled]

/-- **Each value lands in the place of its own placeholder.** A template with text around its
placeholders renders to its literal texts with the replacements between them, provided that no
placeholder that goes is spelled once more in the text assembled in front of its place. That is so
wherever the literal texts in front of placeholders and the replacements have no opening brace,
placeholders that stay aside.

**Proof sketch.** `foldlM_fill` fills in one placeholder after the other; the second part is
`Segments.unshadowed_of_opening_not_mem`. -/
theorem render_eq_filled {context : Value} {options : Options} {s : List Char} {v : Option Value}
    (hw : (segments s).whole? = none) (hr : render context options s = .ok v) :
    ((segments s).Unshadowed context →
      v = some (.str (String.ofList ((segments s).filled context))))
    ∧ ((∀ h ∈ (segments s).holes, '\x7b' ∉ h.before) →
      (∀ b ∈ (segments s).bodies, Keeps context b ∨ '\x7b' ∉ replacement context b) →
      v = some (.str (String.ofList ((segments s).filled context)))) := by
  refine ⟨fun hs => eq_filled_of_render hw hs hr, fun hliteral hvalue => ?_⟩
  have hs : (segments s).Unshadowed context :=
    unshadowed_of_opening_not_mem (fun _ hb => isBody_of_mem_bodies hb) hliteral hvalue
  exact eq_filled_of_render hw hs hr

/-- Stray braces, a repeated placeholder and one that stays: each value lands in its own place. -/
theorem render_eq_filled_of_stray_braces :
    let context : Value := .obj [("x", .str "1")]
    let s := "\x7b\x7b\x7bx\x7d\x7d-\x7b\x7bk\x7d\x7d\x7d\x7b\x7bx\x7d\x7d".toList
    (segments s).whole? = none ∧ (segments s).Unshadowed context
      ∧ render context {} s = .ok (some (.str "\x7b1-\x7b\x7bk\x7d\x7d\x7d1"))
      ∧ some (Value.str "\x7b1-\x7b\x7bk\x7d\x7d\x7d1")
        = some (.str (String.ofList ((segments s).filled context))) := by
  intro context s
  have hw : (segments s).whole? = none := by decide +kernel
  have hr : render context {} s = .ok (some (.str "\x7b1-\x7b\x7bk\x7d\x7d\x7d1")) :=
    eq_ok_of_toOption (by decide +kernel)
  have hs : (segments s).Unshadowed context := by
    have hholes : (segments s).holes
        = [⟨['\x7b'], ['x']⟩, ⟨['-'], ['k']⟩, ⟨['\x7d'], ['x']⟩] := by decide +kernel
    intro before h after hsplit _
    rw [hholes] at hsplit
    match before with
    | [] =>
      simp only [List.nil_append, List.cons.injEq] at hsplit
      rw [← hsplit.1]
      decide +kernel
    | [a] =>
      simp only [List.cons_append, List.nil_append, List.cons.injEq] at hsplit
      rw [← hsplit.1, ← hsplit.2.1]
      decide +kernel
    | [a, b] =>
      simp only [List.cons_append, List.nil_append, List.cons.injEq] at hsplit
      rw [← hsplit.1, ← hsplit.2.1, ← hsplit.2.2.1]
      decide +kernel
    | a :: b :: c :: before => simp at hsplit
  exact ⟨hw, hs, hr, (render_eq_filled hw hr).1 hs⟩

/-- Without the condition on what is spelled in front, a value can land elsewhere: here braces
around the value of `x` spell the placeholder of `a`, although no value has a brace. -/
theorem render_ne_filled_of_spelled :
    let context : Value := .obj [("x", .str "a"), ("a", .str "v")]
    let s := "\x7b\x7b\x7b\x7bx\x7d\x7d\x7d\x7d \x7b\x7ba\x7d\x7d".toList
    (segments s).whole? = none
      ∧ (∀ b ∈ (segments s).bodies,
        '\x7b' ∉ replacement context b ∧ '\x7d' ∉ replacement context b)
      ∧ render context {} s = .ok (some (.str "v \x7b\x7ba\x7d\x7d"))
      ∧ (segments s).filled context = "\x7b\x7ba\x7d\x7d v".toList :=
  ⟨by decide +kernel, by decide +kernel, eq_ok_of_toOption (by decide +kernel), by decide +kernel⟩

end Stencil.Template
