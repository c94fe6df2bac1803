import Stencil.Proofs.Template.Scan
import Stencil.Proofs.Text.Slice

/-!
# Finding placeholders

The occurrences that a scan reports are those that are written in the template, in their order and
without overlaps. A search that keeps its place as a number of bytes, and that would fail where a
place lies inside a character, ends with these very occurrences.

## Main definitions

* `Stencil.Template.Probe`, `Stencil.Template.probe?` — one round of a search by bytes.
* `Stencil.Template.Search` — the rounds from a place to the end of the search.

## Main results

* `Stencil.Template.pairwise_occurrences` — occurrences are in order and apart.
* `Stencil.Template.search_occurrences` — the search by bytes ends with the occurrences of the scan.
* `Stencil.Template.find_exact` — what is found, in which order, and by which search.
-/

set_option autoImplicit false

namespace Stencil.Template

open Segments

variable {s ahead : List Char} {place : Nat}

/-! ## Order -/

/-- An occurrence has at least its braces. -/
theorem Occurrence.start_lt_stop (o : Occurrence) : o.start < o.stop := by
  have hbrace := Char.utf8Size_pos '\x7b'
  rw [stop, text, wrap_eq_cons, Text.byteSize]
  omega

/-- No occurrence starts in the text in front. -/
theorem le_start_of_mem_occurrences {start : Nat} {holes : List Hole} {o : Occurrence}
    (h : o ∈ occurrences start holes) : start ≤ o.start := by
  induction holes generalizing start with
  | nil => cases h
  | cons hole rest ih =>
    rw [occurrences, List.mem_cons] at h
    rcases h with rfl | h
    · exact Nat.le_add_right start _
    · have hstop := Occurrence.start_lt_stop ⟨hole.body, start + Text.byteSize hole.before⟩
      have hrest := ih h
      dsimp only at hstop hrest
      omega

/-- Every occurrence starts behind the one in front of it. -/
theorem pairwise_occurrences (start : Nat) (holes : List Hole) :
    (occurrences start holes).Pairwise fun o p => o.start < p.start ∧ o.stop ≤ p.start := by
  induction holes generalizing start with
  | nil => exact .nil
  | cons hole rest ih =>
    rw [occurrences]
    refine .cons (fun p hp => ?_) (ih _)
    have hle := le_start_of_mem_occurrences hp
    exact ⟨Nat.lt_of_lt_of_le (Occurrence.start_lt_stop _) hle, hle⟩

/-- An occurrence is found exactly where it can be sliced out of the template. -/
theorem mem_find_iff {o : Occurrence} :
    o ∈ find s ↔ IsBody o.body ∧ Text.slice? o.start o.stop s = some o.text := by
  have hstop : o.start + Text.byteSize o.text = o.stop := rfl
  simp only [find, mem_occurrences_segments_iff, Text.slice?_eq_some_iff, Nat.zero_add, hstop,
    and_true]
  rfl

/-! ## A search by bytes -/

/-- What a round of a search comes to: there is no further occurrence, or one has been found, or
braces open that belong to none. The search goes on at the next place. -/
inductive Probe where
  | done
  | found (o : Occurrence) (next : Nat)
  | missed (next : Nat)

/-- One round of a search from a place on. It looks for the next opening braces and takes the body
characters behind them. Where these are followed by closing braces, the search goes on behind those;
otherwise it goes on one byte behind the start of the opening ones. There is no result when the
template is to be cut inside a character. -/
def probe? (s : List Char) (place : Nat) : Option Probe := do
  let (_, ahead) ← Text.cutAt? place s
  match Text.cut? opening ahead with
  | none => return .done
  | some (skipped, _) =>
    let start := place + Text.byteSize skipped
    let bodyStart := start + Text.byteSize opening
    let (_, inside) ← Text.cutAt? bodyStart s
    let bodyStop := bodyStart + Text.byteSize (inside.takeWhile isBodyChar)
    let (_, behind) ← Text.cutAt? bodyStop s
    if bodyStart < bodyStop ∧ Text.startsWith closing behind = true then
      let stop := bodyStop + Text.byteSize closing
      let _ ← Text.slice? start stop s
      let body ← Text.slice? bodyStart bodyStop s
      return .found ⟨body, start⟩ stop
    else return .missed (start + 1)

/-- From this place on, a search ends after finding these occurrences. -/
inductive Search (s : List Char) : Nat → List Occurrence → Prop where
  /-- The search is over. -/
  | done {place : Nat} (h : probe? s place = some .done) : Search s place []
  /-- The search finds an occurrence and goes on. -/
  | found {place next : Nat} {o : Occurrence} {os : List Occurrence}
      (h : probe? s place = some (.found o next)) (rest : Search s next os) :
      Search s place (o :: os)
  /-- The search goes on without an occurrence. -/
  | missed {place next : Nat} {os : List Occurrence}
      (h : probe? s place = some (.missed next)) (rest : Search s next os) : Search s place os

/-- A search ends in one way only. -/
theorem Search.unique {os os' : List Occurrence} (h : Search s place os)
    (h' : Search s place os') : os = os' := by
  induction h generalizing os' with
  | done h =>
    cases h' with
    | done => rfl
    | found h₂ => simp [h] at h₂
    | missed h₂ => simp [h] at h₂
  | found h _ ih =>
    cases h' with
    | done h₂ => simp [h] at h₂
    | found h₂ hrest =>
      rw [h, Option.some_inj, Probe.found.injEq] at h₂
      obtain ⟨rfl, rfl⟩ := h₂
      rw [ih hrest]
    | missed h₂ => simp [h] at h₂
  | missed h _ ih =>
    cases h' with
    | done h₂ => simp [h] at h₂
    | found h₂ => simp [h] at h₂
    | missed h₂ hrest =>
      rw [h, Option.some_inj, Probe.missed.injEq] at h₂
      subst h₂
      exact ih hrest

/-- Where no braces open, the search is over. -/
theorem probe?_eq_done (front : List Char) (h : Text.cut? opening ahead = none) :
    probe? (front ++ ahead) (Text.byteSize front) = some .done := by
  simp only [probe?, Text.cutAt?_byteSize, Option.bind_eq_bind, Option.bind_some, h]
  rfl

/-- Where the next braces that open belong to an occurrence, it is found. -/
theorem probe?_eq_found {skipped body rest : List Char} (front : List Char) (hbody : IsBody body)
    (h : Text.cut? opening (skipped ++ (wrap body ++ rest))
      = some (skipped, body ++ (closing ++ rest))) :
    probe? (front ++ (skipped ++ (wrap body ++ rest))) (Text.byteSize front)
      = some (.found ⟨body, Text.byteSize (front ++ skipped)⟩
        (Text.byteSize (front ++ skipped ++ wrap body))) := by
  have hahead := Text.cutAt?_byteSize front (skipped ++ (wrap body ++ rest))
  have hinside := Text.cutAt?_byteSize (front ++ skipped ++ opening) (body ++ (closing ++ rest))
  have hbehind := Text.cutAt?_byteSize (front ++ skipped ++ opening ++ body) (closing ++ rest)
  have hclosing : Text.startsWith closing (closing ++ rest) = true := by
    rw [Text.startsWith, Text.dropStart?_eq_some_iff.2 rfl, Option.isSome_some]
  have hpos : 0 < Text.byteSize body := by
    obtain ⟨c, r, rfl⟩ := List.exists_cons_of_ne_nil hbody.ne_nil
    have hc := c.utf8Size_pos
    rw [Text.byteSize]
    omega
  have htext := Text.slice?_append (front ++ skipped) (wrap body) rest
  have hpart := Text.slice?_append (front ++ skipped ++ opening) body (closing ++ rest)
  simp only [wrap, List.append_assoc, Text.byteSize_append]
    at hahead hinside hbehind htext hpart h ⊢
  simp only [probe?, hahead, h, Option.bind_eq_bind, Option.bind_some, Nat.add_assoc, hinside,
    hbody.takeWhile_append, hbehind, hclosing, hpos, htext, hpart, Nat.add_lt_add_iff_left,
    Nat.lt_add_right_iff_pos, and_self, if_true]
  rfl

/-- Where no placeholder starts, opening braces are followed by no body characters, or these are
followed by no closing braces. -/
theorem not_closing_of_hole?_eq_none {rest : List Char} (h : hole? (opening ++ rest) = none) :
    ¬ (0 < Text.byteSize (rest.takeWhile isBodyChar)
      ∧ Text.startsWith closing (rest.dropWhile isBodyChar) = true) := by
  rintro ⟨hpos, hclosing⟩
  obtain ⟨after, hafter⟩ := Option.isSome_iff_exists.1 hclosing
  have hbody : IsBody (rest.takeWhile isBodyChar) := by
    refine ⟨fun hnil => ?_, List.all_eq_true.1 List.all_takeWhile⟩
    rw [hnil, Text.byteSize] at hpos
    exact Nat.lt_irrefl 0 hpos
  have hsplit : opening ++ rest = wrap (rest.takeWhile isBodyChar) ++ after := by
    rw [wrap, List.append_assoc, List.append_assoc, ← Text.dropStart?_eq_some_iff.1 hafter,
      List.takeWhile_append_dropWhile]
  rw [hole?_eq_some_iff.2 ⟨hbody, hsplit⟩] at h
  cases h

/-- Where the next braces that open belong to no occurrence, the search goes on behind the first of
them. -/
theorem probe?_eq_missed {skipped rest : List Char} (front : List Char)
    (h : Text.cut? opening (skipped ++ (opening ++ rest)) = some (skipped, rest))
    (hnone : hole? (opening ++ rest) = none) :
    probe? (front ++ (skipped ++ (opening ++ rest))) (Text.byteSize front)
      = some (.missed (Text.byteSize (front ++ skipped ++ ['\x7b']))) := by
  have hahead := Text.cutAt?_byteSize front (skipped ++ (opening ++ rest))
  have hinside := Text.cutAt?_byteSize (front ++ skipped ++ opening) rest
  have hbehind := Text.cutAt?_byteSize (front ++ skipped ++ opening ++ rest.takeWhile isBodyChar)
    (rest.dropWhile isBodyChar)
  simp only [List.append_assoc, List.takeWhile_append_dropWhile, Text.byteSize_append]
    at hinside hbehind ⊢
  simp only [probe?, hahead, h, Option.bind_eq_bind, Option.bind_some, Nat.add_assoc, hinside,
    hbehind, Nat.add_lt_add_iff_left, Nat.lt_add_right_iff_pos,
    if_neg (not_closing_of_hole?_eq_none hnone)]
  rfl

/-! ## The search and the scan -/

/-- Text in front of the first opening braces is literal. -/
theorem segments_of_cut? {skipped after : List Char}
    (h : Text.cut? opening s = some (skipped, after)) :
    segments s = prepend skipped (segments (opening ++ after)) := by
  induction s generalizing skipped with
  | nil => simp [Text.cut?, opening] at h
  | cons c r ih =>
    rw [Text.cut?] at h
    split at h
    · next hopen =>
      cases h
      rw [prepend_nil, Text.dropStart?_eq_some_iff.1 hopen]
    · next hopen =>
      obtain ⟨⟨skipped', after'⟩, hcut, heq⟩ := Option.map_eq_some_iff.1 h
      cases heq
      have hnone : hole? (c :: r) = none := by rw [hole?, hopen]; rfl
      rw [segments_cons hnone, ih hcut, prepend_cons]

/-- Text without opening braces is literal. -/
theorem segments_of_cut?_eq_none (h : Text.cut? opening s = none) : segments s = ⟨[], s⟩ := by
  induction s with
  | nil => rw [segments]
  | cons c r ih =>
    rw [Text.cut?] at h
    split at h
    · cases h
    · next hopen =>
      have hnone : hole? (c :: r) = none := by rw [hole?, hopen]; rfl
      rw [segments_cons hnone, ih (Option.map_eq_none_iff.1 h), push]

/-- **The search ends with the occurrences of the scan.** From a place between two characters on, no
round cuts the template inside a character.

**Proof sketch.** By induction on the length of what is ahead. The next braces that open start an
occurrence or not. Either way the next place is between two characters: behind the occurrence, or
behind a single brace. -/
theorem search_occurrences (front ahead : List Char) :
    Search (front ++ ahead) (Text.byteSize front)
      (occurrences (Text.byteSize front) (segments ahead).holes) := by
  induction hlength : ahead.length using Nat.strongRecOn generalizing front ahead with
  | ind n ih =>
    subst hlength
    cases hcut : Text.cut? opening ahead with
    | none =>
      rw [segments_of_cut?_eq_none hcut]
      exact .done (probe?_eq_done front hcut)
    | some pieces =>
      obtain ⟨skipped, after⟩ := pieces
      obtain rfl := Text.eq_append_of_cut?_eq_some hcut
      rw [segments_of_cut? hcut, occurrences_prepend, ← Text.byteSize_append]
      cases hhole : hole? (opening ++ after) with
      | some found =>
        obtain ⟨body, rest⟩ := found
        obtain ⟨hbody, hsplit⟩ := hole?_eq_some_iff.1 hhole
        obtain rfl : after = body ++ (closing ++ rest) := by simpa [wrap] using hsplit
        have hlt := length_lt_of_hole? hhole
        rw [List.length_append] at hlt
        have hrest := ih rest.length (by rw [List.length_append, List.length_append]; omega)
          (front ++ skipped ++ wrap body) rest rfl
        rw [List.append_assoc (front ++ skipped), List.append_assoc front skipped (_ ++ _)] at hrest
        rw [hsplit] at hcut ⊢
        rw [occurrences_segments_wrap hbody, ← Text.byteSize_append]
        exact .found (probe?_eq_found front hbody hcut) hrest
      | none =>
        have hrest := ih ('\x7b' :: after).length (by simp [opening]; omega)
          (front ++ skipped ++ ['\x7b']) ('\x7b' :: after) rfl
        rw [List.append_assoc (front ++ skipped), List.append_assoc front skipped (_ ++ _)] at hrest
        have hmoved := occurrences_segments_cons hhole (Text.byteSize (front ++ skipped))
        rw [← Text.byteSize_append] at hmoved
        exact hmoved ▸ .missed (probe?_eq_missed front hcut hhole) hrest

/-- **What is found.** The occurrences that are found are all those in the template: opening braces,
a nonempty run of body characters and closing braces, sliced out of the template from the first byte
to the last one. They are in the order of their starts, each once, and none reaches into the next.
Searching by bytes from the start of the template ends, with these occurrences, and never cuts the
template inside a character.

**Proof sketch.** A scan reports every written placeholder in its place, since two of them do not
overlap. The search by bytes is at each round where the scan is, between two characters. -/
theorem find_exact (s : List Char) :
    (∀ o, o ∈ find s ↔ IsBody o.body ∧ Text.slice? o.start o.stop s = some o.text)
      ∧ (find s).Pairwise (fun o p => o.start < p.start ∧ o.stop ≤ p.start)
      ∧ ∀ os, Search s 0 os ↔ os = find s := by
  have hsearch : Search s 0 (find s) := search_occurrences [] s
  refine ⟨fun o => mem_find_iff, pairwise_occurrences 0 _, fun os => ⟨fun h => ?_, ?_⟩⟩
  · exact h.unique hsearch
  · rintro rfl
    exact hsearch

/-- A third brace, a body with a blank of two bytes, and braces that open twice. -/
example : find "é\x7b\x7b\x7bx\x7d\x7d\x7b\x7ba\x7b\x7b\u0085b\x7d\x7d".toList
    = [⟨['x'], 3⟩, ⟨['\u0085', 'b'], 11⟩] := by decide +kernel

end Stencil.Template
