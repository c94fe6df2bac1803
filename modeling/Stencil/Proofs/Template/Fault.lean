import Stencil.Proofs.Failure
import Stencil.Template.Render

/-!
# Faulty placeholders

What is wrong with a placeholder before any context is looked at: its body cannot be read, or it has
a tag that the options do not allow. A template fails as its first faulty placeholder does, whatever
the context holds.

## Main definitions

* `Stencil.Template.Acceptable` — the body can be read and its tags are allowed.
* `Stencil.Template.Fault` — what is wrong with a body.

## Main results

* `Stencil.Template.prepare_eq_error_iff`, `Stencil.Template.failure?_prepare_eq_none_iff` — the
  faults are what preparing a placeholder reports.
* `Stencil.Template.failure?_render` — the failure of a template is that of its first faulty
  placeholder.
-/

set_option autoImplicit false

namespace Stencil.Template

/-! ## One placeholder -/

/-- The body can be read as a placeholder, and the options allow all its tags. -/
def Acceptable (options : Options) (body : List Char) : Prop :=
  ∃ p, Placeholder.parse body = .ok p ∧ ∀ t ∈ p.tags, options.allows t = true

/-- What is wrong with a body: it cannot be read, or else the first of its tags that the options do
not allow. -/
inductive Fault (options : Options) (body : List Char) : RenderError → Prop where
  | unreadable {e : RenderError} : Placeholder.parse body = .error e → Fault options body e
  | disallowed {p : Placeholder} {before after : List Tag} {t : Tag} :
    Placeholder.parse body = .ok p → p.tags = before ++ t :: after →
    (∀ u ∈ before, options.allows u = true) → options.allows t = false →
    Fault options body (.disallowedTag t)

/-- The check passes exactly when all tags are allowed. -/
theorem check_eq_ok_iff {p : Placeholder} {options : Options} :
    p.check options = .ok () ↔ ∀ t ∈ p.tags, options.allows t = true := by
  unfold Placeholder.check
  split
  · next t h =>
    obtain ⟨hmem, hnot⟩ := And.intro (List.mem_of_find?_eq_some h) (List.find?_some h)
    simp only [reduceCtorEq, false_iff]
    intro hall
    simp [hall t hmem] at hnot
  · next h => simpa using h

/-- The check refuses the first tag that is not allowed. -/
theorem check_eq_error_iff {p : Placeholder} {options : Options} {e : RenderError} :
    p.check options = .error e ↔ ∃ before t after, p.tags = before ++ t :: after
      ∧ (∀ u ∈ before, options.allows u = true) ∧ options.allows t = false
      ∧ e = .disallowedTag t := by
  unfold Placeholder.check
  constructor
  · intro h
    split at h
    · next t hfind =>
      cases h
      obtain ⟨hnot, before, after, hsplit, hbefore⟩ := List.find?_eq_some_iff_append.1 hfind
      exact ⟨before, t, after, hsplit, by simpa using hbefore, by simpa using hnot, rfl⟩
    · cases h
  · rintro ⟨before, t, after, hsplit, hbefore, hnot, rfl⟩
    have hfind : p.tags.find? (fun u => !options.allows u) = some t :=
      List.find?_eq_some_iff_append.2 ⟨by simpa using hnot, before, after, hsplit, by
        simpa using hbefore⟩
    rw [hfind]

/-- A placeholder is prepared exactly when its body can be read and its tags are allowed. -/
theorem prepare_eq_ok_iff {options : Options} {body : List Char} {p : Placeholder} :
    prepare options body = .ok p ↔
      Placeholder.parse body = .ok p ∧ ∀ t ∈ p.tags, options.allows t = true := by
  simp only [prepare, bind_eq_ok_iff, ← check_eq_ok_iff]
  constructor
  · rintro ⟨q, hq, ⟨⟩, hcheck, h⟩
    cases h
    exact ⟨hq, hcheck⟩
  · rintro ⟨hp, hcheck⟩
    exact ⟨p, hp, (), hcheck, rfl⟩

/-- Preparing a placeholder reports its fault. -/
theorem prepare_eq_error_iff {options : Options} {body : List Char} {e : RenderError} :
    prepare options body = .error e ↔ Fault options body e := by
  cases hparse : Placeholder.parse body with
  | error e' =>
    have hprepare : prepare options body = .error e' := by simp only [prepare, hparse]; rfl
    rw [hprepare]
    constructor
    · intro h
      cases h
      exact .unreadable hparse
    · rintro (h | ⟨h, -, -, -⟩)
      · rw [hparse] at h
        cases h
        rfl
      · rw [hparse] at h
        cases h
  | ok p =>
    have hprepare : prepare options body = .error e ↔ p.check options = .error e := by
      simp only [prepare, hparse]
      show (p.check options >>= fun _ => pure p) = .error e ↔ _
      cases p.check options <;> simp [bind, Except.bind, pure, Except.pure]
    rw [hprepare, check_eq_error_iff]
    constructor
    · rintro ⟨before, t, after, hsplit, hbefore, hnot, rfl⟩
      exact .disallowed hparse hsplit hbefore hnot
    · rintro (h | ⟨h, hsplit, hbefore, hnot⟩)
      · rw [hparse] at h
        cases h
      · rw [hparse] at h
        cases h
        exact ⟨_, _, _, hsplit, hbefore, hnot, rfl⟩

/-- Preparing fails for no acceptable body. -/
theorem failure?_prepare_eq_none_iff {options : Options} {body : List Char} :
    failure? (prepare options body) = none ↔ Acceptable options body := by
  simp only [failure?_eq_none_iff, prepare_eq_ok_iff, Acceptable]

/-! ## A template -/

/-- The template that is one placeholder, as segments. -/
theorem Segments.eq_of_whole? {t : Segments} {body : List Char} (h : t.whole? = some body) :
    t = ⟨[⟨[], body⟩], []⟩ := by
  unfold Segments.whole? at h
  split at h
  · cases h
    rfl
  · cases h

/-- The failure of a template is that of its first faulty placeholder; the context takes no part
in it. -/
theorem failure?_render (context : Value) (options : Options) (s : List Char) :
    failure? (render context options s)
      = (segments s).bodies.findSome? fun b => failure? (prepare options b) := by
  unfold render
  dsimp only
  split
  · next body hw =>
    have hbodies : (segments s).bodies = [body] := by rw [Segments.eq_of_whole? hw]; rfl
    rw [hbodies, failure?_bind_pure, List.findSome?_cons]
    cases failure? (prepare options body) <;> rfl
  · rw [failure?_bind_pure]
    refine failure?_foldlM (fun text b => ?_) _ _
    exact failure?_bind_pure (prepare options b) _

end Stencil.Template
