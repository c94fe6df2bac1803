import Stencil.Text.Basic

/-!
# Occurrences of placeholders

A template is cut, from left to right, into literal text and the bodies between double braces. A
body is a run of letters, digits, blanks and a few marks that is not empty.

## Main definitions

* `Stencil.Template.isBodyChar` — the characters of a body.
* `Stencil.Template.hole?` — the body of a placeholder at the start of a text.
* `Stencil.Template.Segments`, `Stencil.Template.segments` — a template cut at its placeholders.
* `Stencil.Template.find` — the occurrences with their places in bytes.

## Main results

* `Stencil.Template.eq_append_of_hole?` — an occurrence is its body between double braces.
* `Stencil.Template.text_segments` — cutting a template loses nothing.
-/

set_option autoImplicit false

namespace Stencil.Template

/-! ## One occurrence -/

/-- A character of a body. -/
def isBodyChar (c : Char) : Bool :=
  c.isAlphanum || Text.isBlank c || c == '_' || c == '-' || c == '.' || c == '|' || c == ':'
    || c == '?' || c == '/'

/-- The braces that open a placeholder. -/
def opening : List Char := ['\x7b', '\x7b']

/-- The braces that close a placeholder. -/
def closing : List Char := ['\x7d', '\x7d']

/-- The written form of the placeholder with this body. -/
def wrap (body : List Char) : List Char := opening ++ (body ++ closing)

/-- The body of the placeholder that a text starts with, and what follows it. -/
def hole? (s : List Char) : Option (List Char × List Char) := do
  let inside ← Text.dropStart? opening s
  let body := inside.takeWhile isBodyChar
  let rest ← Text.dropStart? closing (inside.dropWhile isBodyChar)
  if body = [] then none else some (body, rest)

theorem eq_append_of_hole? {s body rest : List Char} (h : hole? s = some (body, rest)) :
    s = wrap body ++ rest := by
  simp only [hole?, Option.bind_eq_bind, Option.bind_eq_some_iff] at h
  obtain ⟨inside, hopen, after, hclose, h⟩ := h
  rw [Text.dropStart?_eq_some_iff] at hopen hclose
  split at h
  · exact absurd h (by simp)
  · simp only [Option.some.injEq, Prod.mk.injEq] at h
    obtain ⟨hbody, rfl⟩ := h
    rw [hopen, ← List.takeWhile_append_dropWhile (p := isBodyChar) (l := inside), hclose, hbody]
    simp [wrap]

theorem length_lt_of_hole? {s body rest : List Char} (h : hole? s = some (body, rest)) :
    rest.length < s.length := by
  rw [eq_append_of_hole? h]
  simp only [wrap, opening, List.length_append, List.length_cons, List.length_nil]
  omega

/-! ## The whole template -/

/-- Literal text and the body of the placeholder behind it. -/
structure Hole where
  before : List Char
  body : List Char
deriving DecidableEq, Inhabited

/-- A template cut at its placeholders. -/
structure Segments where
  holes : List Hole
  tail : List Char
deriving DecidableEq, Inhabited

namespace Segments

/-- One more literal character in front. -/
def push (c : Char) : Segments → Segments
  | ⟨[], tail⟩ => ⟨[], c :: tail⟩
  | ⟨h :: holes, tail⟩ => ⟨⟨c :: h.before, h.body⟩ :: holes, tail⟩

/-- The text of the template. -/
def text (t : Segments) : List Char :=
  t.holes.flatMap (fun h => h.before ++ wrap h.body) ++ t.tail

/-- The bodies from left to right. -/
def bodies (t : Segments) : List (List Char) := t.holes.map Hole.body

/-- The body of the one placeholder that is the whole template. -/
def whole? (t : Segments) : Option (List Char) :=
  match t with
  | ⟨[⟨[], body⟩], []⟩ => some body
  | _ => none

theorem text_push (c : Char) (t : Segments) : (push c t).text = c :: t.text := by
  obtain ⟨_ | ⟨h, holes⟩, tail⟩ := t <;> simp [push, text]

end Segments

/-- A template cut at its placeholders, from left to right: each occurrence is taken as soon as one
starts, and any other character is literal. -/
def segments (s : List Char) : Segments :=
  match s with
  | [] => ⟨[], []⟩
  | c :: r =>
    match _h : hole? (c :: r) with
    | some (body, rest) =>
      let t := segments rest
      ⟨⟨[], body⟩ :: t.holes, t.tail⟩
    | none => (segments r).push c
termination_by s.length
decreasing_by
  · exact length_lt_of_hole? _h
  · exact Nat.lt_succ_self r.length

theorem text_segments (s : List Char) : (segments s).text = s := by
  fun_induction segments s with
  | case1 => rfl
  | case2 c r body rest h _ ih =>
    calc Segments.text ⟨⟨[], body⟩ :: (segments rest).holes, (segments rest).tail⟩
        = wrap body ++ (segments rest).text := by simp [Segments.text]
      _ = c :: r := by rw [ih, ← eq_append_of_hole? h]
  | case3 c r h ih => rw [Segments.text_push, ih]

/-! ## Places -/

/-- An occurrence of a placeholder in a template. -/
structure Occurrence where
  /-- The body between the braces. -/
  body : List Char
  /-- The number of bytes in front of the opening braces. -/
  start : Nat
deriving DecidableEq, Inhabited

namespace Occurrence

/-- The occurrence with its braces. -/
def text (o : Occurrence) : List Char := wrap o.body

/-- The number of bytes in front of what follows the closing braces. -/
def stop (o : Occurrence) : Nat := o.start + Text.byteSize o.text

end Occurrence

/-- The occurrences that these holes are when `start` bytes stand in front of them. -/
def occurrences (start : Nat) : List Hole → List Occurrence
  | [] => []
  | h :: rest =>
    let o : Occurrence := ⟨h.body, start + Text.byteSize h.before⟩
    o :: occurrences o.stop rest

/-- The occurrences of placeholders in a template, from left to right. -/
def find (s : List Char) : List Occurrence := occurrences 0 (segments s).holes

end Stencil.Template
