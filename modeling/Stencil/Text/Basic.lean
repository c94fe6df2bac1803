import Stencil.Text.Blank

/-!
# Cutting texts

Trimming, cutting at the first occurrence of a pattern, replacing that occurrence, and the size of
a text in bytes. Texts are lists of characters throughout, so that every scan is a recursion on the
text itself.

## Main definitions

* `Stencil.Text.trim` — a text without the blanks at its two ends.
* `Stencil.Text.dropStart?` — what follows a given beginning.
* `Stencil.Text.cut?` — the text before and after the first occurrence of a pattern.
* `Stencil.Text.replaceFirst` — the text with the first occurrence of a pattern replaced.
* `Stencil.Text.byteSize` — the number of bytes of a text in UTF-8.

## Main results

* `Stencil.Text.dropStart?_eq_some_iff` — dropping a beginning inverts putting it in front.
* `Stencil.Text.eq_append_of_cut?_eq_some` — a cut loses nothing but the pattern.
-/

set_option autoImplicit false

namespace Stencil.Text

/-! ## Trimming -/

/-- The text without its leading blanks. -/
def trimStart (s : List Char) : List Char := s.dropWhile isBlank

/-- The text without its trailing blanks. -/
def trimEnd (s : List Char) : List Char := (s.reverse.dropWhile isBlank).reverse

/-- The text without the blanks at either end. -/
def trim (s : List Char) : List Char := trimEnd (trimStart s)

/-! ## Cutting at a pattern -/

/-- What follows `p` in a text that begins with `p`. -/
def dropStart? : (p s : List Char) → Option (List Char)
  | [], s => some s
  | _ :: _, [] => none
  | a :: p, b :: s => if a = b then dropStart? p s else none

theorem dropStart?_eq_some_iff {p s t : List Char} : dropStart? p s = some t ↔ s = p ++ t := by
  fun_induction dropStart? p s <;> simp_all [eq_comm]

/-- The text starts with `p`. -/
def startsWith (p s : List Char) : Bool := (dropStart? p s).isSome

/-- The text before and the text after the first occurrence of `p`. -/
def cut? (p : List Char) : List Char → Option (List Char × List Char)
  | [] => if p = [] then some ([], []) else none
  | c :: r =>
    match dropStart? p (c :: r) with
    | some after => some ([], after)
    | none => (cut? p r).map fun (before, after) => (c :: before, after)

theorem eq_append_of_cut?_eq_some {p s before after : List Char}
    (h : cut? p s = some (before, after)) : s = before ++ (p ++ after) := by
  induction s generalizing before with
  | nil => simp_all [cut?]
  | cons c r ih =>
    rw [cut?] at h
    split at h
    · next heq =>
      simp only [Option.some.injEq, Prod.mk.injEq] at h
      obtain ⟨rfl, rfl⟩ := h
      rw [List.nil_append]
      exact dropStart?_eq_some_iff.1 heq
    · simp only [Option.map_eq_some_iff, Prod.mk.injEq, Prod.exists] at h
      obtain ⟨b, a, hb, rfl, rfl⟩ := h
      rw [ih hb, List.cons_append]

/-- The pattern occurs in the text. -/
def contains (p s : List Char) : Bool := (cut? p s).isSome

/-- The text with the first occurrence of `p` replaced by `new`; unchanged when there is none. -/
def replaceFirst (p new s : List Char) : List Char :=
  match cut? p s with
  | some (before, after) => before ++ (new ++ after)
  | none => s

/-! ## Measures -/

/-- The number of bytes of the text in UTF-8. -/
def byteSize : List Char → Nat
  | [] => 0
  | c :: r => c.utf8Size + byteSize r

@[simp] theorem byteSize_append (s t : List Char) :
    byteSize (s ++ t) = byteSize s + byteSize t := by
  induction s with
  | nil => simp [byteSize]
  | cons c r ih => simp [byteSize, ih, Nat.add_assoc]

end Stencil.Text
