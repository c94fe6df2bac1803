/-!
# The longest start

A scan takes what is written at the start of a text, as much as it can, and gives the rest. When it
takes at least what is written there, and nothing that is not written, it takes the longest start
that writes anything.

## Main definitions

* `Stencil.Text.LongestStart` — the longest start of a text that writes something.
* `Stencil.Text.Scans` — a scan takes what is written, and no less than what is written.

## Main results

* `Stencil.Text.Scans.eq_none_iff` — a scan fails when no start of the text writes anything.
* `Stencil.Text.Scans.eq_some_iff` — a scan takes the longest start.
-/

set_option autoImplicit false

namespace Stencil.Text

variable {α : Type} {Writes : List Char → α → Prop}
  {scan : List Char → Option (α × List Char)} {s p rest : List Char} {a : α}

/-- A text is the longest one at the start of another text that writes anything, and it writes
this. -/
structure LongestStart (Writes : List Char → α → Prop) (s p : List Char) (a : α) : Prop where
  start : p <+: s
  writes : Writes p a
  length_le : ∀ q b, q <+: s → Writes q b → q.length ≤ p.length

/-- The longest start that writes anything of a certain form is the longest start that writes
anything at all. -/
theorem longestStart_image_iff {β : Type} {f : α → β} {b : β} :
    LongestStart (fun p b => ∃ a, Writes p a ∧ f a = b) s p b
      ↔ ∃ a, LongestStart Writes s p a ∧ f a = b := by
  constructor
  · rintro ⟨hstart, ⟨a, hwrites, rfl⟩, hle⟩
    exact ⟨a, ⟨hstart, hwrites, fun q c hq hc => hle q (f c) hq ⟨c, hc, rfl⟩⟩, rfl⟩
  · rintro ⟨a, ⟨hstart, hwrites, hle⟩, rfl⟩
    refine ⟨hstart, ⟨a, hwrites, rfl⟩, ?_⟩
    rintro q - hq ⟨c, hc, rfl⟩
    exact hle q c hq hc

/-- A scan takes from the start of a text what is written there; it takes all of what is written,
and more only from what stands behind it. -/
structure Scans (scan : List Char → Option (α × List Char)) (Writes : List Char → α → Prop) :
    Prop where
  sound : ∀ s a rest, scan s = some (a, rest) → ∃ p, s = p ++ rest ∧ Writes p a
  greedy : ∀ q b behind, Writes q b →
    ∃ a rest, scan (q ++ behind) = some (a, rest) ∧ rest <:+ behind
  alone : ∀ p a, Writes p a → scan p = some (a, [])

namespace Scans

/-- A scan fails exactly when no start of the text writes anything. -/
theorem eq_none_iff (h : Scans scan Writes) :
    scan s = none ↔ ∀ p a, p <+: s → ¬ Writes p a := by
  constructor
  · rintro hnone p a ⟨behind, rfl⟩ hwrites
    obtain ⟨b, rest, hscan, -⟩ := h.greedy p a behind hwrites
    rw [hnone] at hscan
    cases hscan
  · intro hall
    cases hscan : scan s with
    | none => rfl
    | some found =>
      obtain ⟨a, rest⟩ := found
      obtain ⟨p, rfl, hwrites⟩ := h.sound s a rest hscan
      exact absurd hwrites (hall p a (List.prefix_append p rest))

/-- What a scan takes is at least as long as anything that is written at the start. -/
theorem length_le (h : Scans scan Writes) (hscan : scan (p ++ rest) = some (a, rest))
    (q : List Char) (b : α) (hq : q <+: p ++ rest) (hwrites : Writes q b) :
    q.length ≤ p.length := by
  obtain ⟨behind, hsplit⟩ := hq
  obtain ⟨a', rest', hscan', hrest⟩ := h.greedy q b behind hwrites
  rw [hsplit, hscan, Option.some_inj, Prod.mk.injEq] at hscan'
  have hlength := congrArg List.length hsplit
  have hle := hrest.length_le
  rw [← hscan'.2] at hle
  simp only [List.length_append] at hlength
  omega

/-- What a text writes is what a scan of this text gives, so a text writes one thing only. -/
theorem unique (h : Scans scan Writes) {b : α} (ha : Writes p a) (hb : Writes p b) : a = b := by
  have hscan := h.alone p a ha
  rw [h.alone p b hb, Option.some_inj, Prod.mk.injEq] at hscan
  exact hscan.1.symm

/-- **A scan takes the longest start that writes anything.**

**Proof sketch.** What it takes is written, and at least as long as anything else that is written.
When the longest start is given, what the scan takes has the same length and so is the same text,
which writes one thing only. -/
theorem eq_some_iff (h : Scans scan Writes) :
    scan (p ++ rest) = some (a, rest) ↔ LongestStart Writes (p ++ rest) p a := by
  constructor
  · intro hscan
    obtain ⟨q, hsplit, hwrites⟩ := h.sound _ a rest hscan
    obtain rfl : p = q := List.append_cancel_right hsplit
    exact ⟨List.prefix_append p rest, hwrites, h.length_le hscan⟩
  · intro hlongest
    obtain ⟨b, rest', hscan, hrest⟩ := h.greedy p a rest hlongest.writes
    obtain ⟨q, hsplit, hwrites⟩ := h.sound _ b rest' hscan
    have hle := hlongest.length_le q b ⟨rest', hsplit.symm⟩ hwrites
    have hlength := congrArg List.length hsplit
    have hshorter := hrest.length_le
    simp only [List.length_append] at hlength
    obtain ⟨rfl, rfl⟩ := List.append_inj hsplit (by omega)
    rw [hscan, h.unique hlongest.writes hwrites]

/-- What a scan gives is what the longest start writes. -/
theorem map_fst_eq_some_iff (h : Scans scan Writes) :
    (scan s).map Prod.fst = some a ↔ ∃ p, LongestStart Writes s p a := by
  rw [Option.map_eq_some_iff]
  constructor
  · rintro ⟨⟨b, rest⟩, hscan, rfl⟩
    obtain ⟨p, rfl, -⟩ := h.sound s b rest hscan
    exact ⟨p, h.eq_some_iff.1 hscan⟩
  · rintro ⟨p, hlongest⟩
    obtain ⟨rest, rfl⟩ := hlongest.start
    exact ⟨(a, rest), h.eq_some_iff.2 hlongest, rfl⟩

end Scans

end Stencil.Text
