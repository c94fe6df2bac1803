/-!
# Digits

Digits of a base up to sixteen, in upper or lower case, and the numbers that they write.

## Main definitions

* `Stencil.Text.digitValue?` — the value of a digit of a base.
* `Stencil.Text.ofDigits?` — the number that a run of digits writes.

## Main results

* `Stencil.Text.digitValue?_lt` — the value of a digit is below the base.
-/

set_option autoImplicit false

namespace Stencil.Text

/-- The value of a digit of a base up to sixteen. -/
def digitValue? (base : Nat) (c : Char) : Option Nat :=
  let value :=
    if c.isDigit then c.toNat - '0'.toNat
    else if 'a' ≤ c ∧ c ≤ 'f' then c.toNat - 'a'.toNat + 10
    else if 'A' ≤ c ∧ c ≤ 'F' then c.toNat - 'A'.toNat + 10
    else base
  if value < base then some value else none

theorem digitValue?_lt {base n : Nat} {c : Char} (h : digitValue? base c = some n) : n < base := by
  obtain ⟨hlt, heq⟩ := Option.ite_none_right_eq_some.1 h
  exact Option.some.inj heq ▸ hlt

/-- The number that a run of digits of a base writes; there is none without digits. -/
def ofDigits? (base : Nat) (s : List Char) : Option Nat :=
  if s = [] then none
  else s.foldlM (fun n c => (digitValue? base c).map (n * base + ·)) 0

/-- A number in hexadecimal with at least `width` digits, in upper case. -/
def upperHex (width n : Nat) : List Char :=
  let ds := (Nat.toDigits 16 n).map Char.toUpper
  List.replicate (width - ds.length) '0' ++ ds

end Stencil.Text
