/-!
# Blank characters

The characters that count as blank when a text is trimmed or scanned: the Unicode property
White_Space, twenty-five characters.

## Main definitions

* `Stencil.Text.isBlank` — the property White_Space.

## Main results

* `Stencil.Text.isBlank_of_isWhitespace` — every character of the core library's narrower class is
  blank.
-/

set_option autoImplicit false

namespace Stencil.Text

/-- A character is blank when it has the Unicode property White_Space. -/
def isBlank (c : Char) : Bool :=
  let n := c.toNat
  (0x09 ≤ n && n ≤ 0x0D) || n == 0x20 || n == 0x85 || n == 0xA0 || n == 0x1680
    || (0x2000 ≤ n && n ≤ 0x200A) || n == 0x2028 || n == 0x2029 || n == 0x202F || n == 0x205F
    || n == 0x3000

theorem isBlank_of_isWhitespace {c : Char} (h : c.isWhitespace = true) : isBlank c = true := by
  simp only [Char.isWhitespace, Bool.or_eq_true, decide_eq_true_eq] at h
  rcases h with ((rfl | rfl) | rfl) | rfl <;> rfl

/-- A zero-width space is no blank. -/
example : isBlank '\u200b' = false := rfl

end Stencil.Text
