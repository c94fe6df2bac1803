import Stencil.Placeholder.Basic

/-!
# Placeholders that stay

When nothing resolves and nothing stands in, a placeholder stays as it is written. Whether that
happens does not depend on the place of the placeholder: neither the mode nor the text around it
takes part.

## Main definitions

* `Stencil.Placeholder.Unresolved` — no alternative has a value in a context.
* `Stencil.Placeholder.Kept` — nothing resolves and nothing stands in.

## Main results

* `Stencil.Placeholder.resolve?_eq_none_iff` — the mode takes no part in what resolves.
* `Stencil.Placeholder.Kept.outcome?_eq` — what is kept is the written text.
-/

set_option autoImplicit false

namespace Stencil

/-- An alternative has no value exactly when its path leads nowhere or, where empty texts are
ignored, to an empty text. -/
theorem Clause.resolve?_eq_none_iff (c : Clause) (context : Value) (ignoreEmpty : Bool)
    (mode : Mode) : c.resolve? context ignoreEmpty mode = none ↔
      ∀ v, context.get? c.path = some v → ignoreEmpty = true ∧ v = .str "" := by
  unfold Clause.resolve?
  cases context.get? c.path <;> simp

namespace Placeholder

/-- No alternative has a value in the context: its path leads nowhere or, where empty texts are
ignored, to an empty text. -/
def Unresolved (p : Placeholder) (context : Value) : Prop :=
  ∀ c ∈ p.clauses, ∀ v, context.get? c.path = some v → p.ignoresEmptyStr = true ∧ v = .str ""

/-- Nothing resolves, and neither a fallback nor a modifier stands in. -/
structure Kept (p : Placeholder) (context : Value) : Prop where
  unresolved : p.Unresolved context
  fallback_eq_none : p.fallback = none
  allowsUndefined_eq_false : p.allowsUndefined = false
  allowsNull_eq_false : p.allowsNull = false

/-- The mode takes no part in what resolves. -/
theorem resolve?_eq_none_iff (p : Placeholder) (context : Value) (mode : Mode) :
    p.resolve? context mode = none ↔ p.Unresolved context := by
  simp only [resolve?, List.findSome?_eq_none_iff, Clause.resolve?_eq_none_iff, Unresolved]

instance instDecidableUnresolved (p : Placeholder) (context : Value) :
    Decidable (p.Unresolved context) :=
  decidable_of_iff (p.resolve? context .whole = none) (resolve?_eq_none_iff p context .whole)

instance instDecidableKept (p : Placeholder) (context : Value) : Decidable (p.Kept context) :=
  decidable_of_iff (p.Unresolved context ∧ p.fallback = none ∧ p.allowsUndefined = false
      ∧ p.allowsNull = false)
    ⟨fun ⟨hr, hf, hu, hn⟩ => ⟨hr, hf, hu, hn⟩, fun ⟨hr, hf, hu, hn⟩ => ⟨hr, hf, hu, hn⟩⟩

/-- What is kept is the written text. -/
theorem Kept.outcome?_eq {p : Placeholder} {context : Value} (h : p.Kept context)
    (text : List Char) (mode : Mode) :
    p.outcome? text context mode = some (.str (String.ofList text)) := by
  have hr := (resolve?_eq_none_iff p context mode).2 h.unresolved
  simp [outcome?, hr, h.fallback_eq_none, h.allowsUndefined_eq_false, h.allowsNull_eq_false]

end Placeholder

end Stencil
