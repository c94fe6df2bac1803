import Stencil.Proofs.Inspect.Leaves
import Stencil.Proofs.Path.Written
import Stencil.Proofs.Template.Scan
import Stencil.Proofs.Value.Members

/-!
# Locations are paths

An inspection reports every placeholder of a tree once, in document order, with a location. The
location is the steps to the text with dots between them, and so it is a path that leads to that
text, as far as no key on the way is empty or has a dot.

## Main definitions

* `Stencil.Step.Plain` — a step that can be told from the dots around it.
* `Stencil.Inspect.Site`, `Stencil.Inspect.sites` — the placeholders of a tree in its texts.
* `Stencil.Inspect.Site.Reported` — an entry reports a placeholder.

## Main results

* `Stencil.Inspect.forall₂_reported` — the entries report the placeholders, one each.
* `Stencil.Inspect.locationBelow_nil` — a location is a written path.
* `Stencil.Value.get?_locationBelow` — a location leads to the node at its place.
* `Stencil.Inspect.nodup_locationBelow` — texts have different locations.
* `Stencil.Inspect.entries_located` — what an inspection reports.
-/

set_option autoImplicit false

namespace Stencil

/-! ## Steps into a value -/

/-- A step that can be told from the dots around it: a key that is not empty and has no dot, or a
position. -/
def Step.Plain : Step → Prop
  | .key name => name ≠ "" ∧ '.' ∉ name.toList
  | .position _ => True

instance Step.instDecidablePlain (step : Step) : Decidable step.Plain :=
  match step with
  | .key name => inferInstanceAs (Decidable (name ≠ "" ∧ '.' ∉ name.toList))
  | .position _ => isTrue trivial

/-- The written form of a plain step is not empty and has no dot. -/
theorem Step.Plain.text {step : Step} (h : step.Plain) : step.text ≠ [] ∧ '.' ∉ step.text := by
  cases step with
  | key name =>
    refine ⟨fun hnil => h.1 ?_, h.2⟩
    rw [← String.toList_inj]
    exact hnil
  | position i =>
    refine ⟨Nat.toDigits_ne_nil, fun hdot => ?_⟩
    have hdigit := Nat.isDigit_of_mem_toDigits (by decide) (by decide) hdot
    exact absurd hdigit (by decide)

namespace Value

/-- The written form of a step leads to the child. -/
theorem step?_ofText_text {v : Value} (h : v.WellFormed) {c : Step × Value} (hc : c ∈ v.children) :
    v.step? (Segment.ofText c.1.text) = some c.2 := by
  have hlength := h.fitsSigned_length v v.self_mem_subtrees
  have hkeys : v.keys.Nodup := h.distinct.keys
  cases v with
  | arr items =>
    rw [children, List.length_map, List.length_zipIdx] at hlength
    obtain ⟨⟨w, i⟩, hmem, rfl⟩ := List.mem_map.1 hc
    have hget : items[i]? = some w := List.mem_zipIdx_iff_getElem?.1 hmem
    obtain ⟨hi, -⟩ := List.getElem?_eq_some_iff.1 hget
    have hfits : fitsSigned i = true := by
      simp only [fitsSigned, Bool.and_eq_true, decide_eq_true_eq] at hlength ⊢
      omega
    show (arr items).step? (Segment.ofText (Nat.toDigits 10 i)) = some w
    rw [Segment.ofText_toDigits hfits, step?, item?_natCast, hget]
  | obj members =>
    obtain ⟨m, hm, rfl⟩ := List.mem_map.1 hc
    show Members.get? members (Segment.ofText m.1.toList).text = some m.2
    rw [Segment.text_ofText, String.ofList_toList]
    exact Members.get?_of_mem hkeys hm
  | null | bool | num | str => cases hc

/-- The written forms of the steps to a place lead to the node there. -/
theorem follow?_ofText_text {v w : Value} {place : Place} (hat : v.At place w) (h : v.WellFormed) :
    v.follow? (place.map fun step => Segment.ofText step.text) = some w := by
  induction hat with
  | root v => rfl
  | step hc _ ih =>
    rw [List.map_cons, follow?, step?_ofText_text h hc, Option.bind_some]
    exact ih (h.of_mem_children hc)

end Value

/-! ## Locations -/

namespace Inspect

/-- Below a node with a location, the steps follow behind it with dots between them. -/
theorem locationBelow_of_ne_nil {parent : List Char} (h : parent ≠ []) (place : Place) :
    locationBelow parent place = List.intercalate ['.'] (parent :: place.map Step.text) := by
  induction place generalizing parent with
  | nil => rw [locationBelow, List.map_nil, List.intercalate_singleton]
  | cons step place ih =>
    have hchild : childLocation parent step.text = parent ++ '.' :: step.text := if_neg h
    have hne : parent ++ '.' :: step.text ≠ [] := by simp
    rw [locationBelow, hchild, ih hne, List.map_cons, List.intercalate_cons_cons]
    cases place with
    | nil => simp
    | cons next place => simp [List.intercalate_cons_cons]

/-- A location is the steps to its place with dots between them, as far as they are plain. -/
theorem locationBelow_nil {place : Place} (h : ∀ step ∈ place, step.Plain) :
    locationBelow [] place = List.intercalate ['.'] (place.map Step.text) := by
  cases place with
  | nil => rfl
  | cons step place =>
    have hne : step.text ≠ [] := (h step List.mem_cons_self).text.1
    have hchild : childLocation [] step.text = step.text := if_pos rfl
    rw [locationBelow, hchild, locationBelow_of_ne_nil hne, List.map_cons]

/-- The written steps to a place are neither empty nor do they have a dot, as far as they are
plain. -/
theorem forall_text_of_plain {place : Place} (h : ∀ step ∈ place, step.Plain) :
    ∀ name ∈ place.map Step.text, name ≠ [] ∧ '.' ∉ name := by
  intro name hname
  obtain ⟨step, hstep, rfl⟩ := List.mem_map.1 hname
  exact (h step hstep).text

end Inspect

/-- The location of a place is a path to the node there. -/
theorem Value.get?_locationBelow {v w : Value} {place : Place} (hat : v.At place w)
    (h : v.WellFormed) (hplain : ∀ step ∈ place, step.Plain) :
    v.get? (String.ofList (Inspect.locationBelow [] place)) = some w := by
  rw [Value.get?, String.toList_ofList, Inspect.locationBelow_nil hplain,
    Path.ofText_intercalate (Inspect.forall_text_of_plain hplain), List.map_map]
  exact follow?_ofText_text hat h

namespace Inspect

/-- The texts of a tree have different locations.

**Proof sketch.** Their places have different written steps, and written steps that are plain are
read back from the location. -/
theorem nodup_locationBelow {node : Value} (h : node.Distinct)
    (hplain : ∀ t ∈ node.placedTexts, ∀ step ∈ t.place, step.Plain) :
    (node.placedTexts.map fun t => locationBelow [] t.place).Nodup := by
  have hlocations : node.placedTexts.map (fun t => locationBelow [] t.place)
      = (node.placedTexts.map fun t => t.place.map Step.text).map (List.intercalate ['.']) := by
    rw [List.map_map]
    exact List.map_congr_left fun t ht => locationBelow_nil (hplain t ht)
  have hnames : ∀ names ∈ node.placedTexts.map fun t => t.place.map Step.text,
      ((List.intercalate ['.'] names).splitOn '.').filter (· ≠ []) = names := by
    intro names hmem
    obtain ⟨t, ht, rfl⟩ := List.mem_map.1 hmem
    exact Path.filter_splitOn_intercalate (forall_text_of_plain (hplain t ht))
  rw [hlocations]
  refine List.Nodup.map_on (fun names hn names' hn' heq => ?_) (Value.nodup_texts_place h)
  rw [← hnames names hn, heq, hnames names' hn']

/-! ## Entries -/

/-- A placeholder in a text of a tree. -/
structure Site where
  leaf : Value.PlacedText
  occurrence : Template.Occurrence

/-- The placeholders of a tree in document order, and those of one text from left to right. -/
def sites (node : Value) : List Site :=
  node.placedTexts.flatMap fun t => (Template.find t.text.toList).map (Site.mk t)

/-- The entry has the location of the text, the placeholder as it is written, and what is read
from its body. -/
structure Site.Reported (x : Site) (e : Entry) : Prop where
  location_eq : e.location = locationBelow [] x.leaf.place
  text_eq : e.text = x.occurrence.text
  parse_eq : Placeholder.parse x.occurrence.body = .ok e.placeholder

/-- An inspection makes an entry for each placeholder of the tree. -/
theorem entries_eq (node : Value) :
    entries node
      = (sites node).mapM fun x => entry (Leaf.ofPlaced [] x.leaf) x.occurrence.body := by
  have hpairs : ((leaves [] node).flatMap fun leaf =>
      (Template.segments leaf.text).bodies.map fun body => (leaf, body))
        = (sites node).map fun x => (Leaf.ofPlaced [] x.leaf, x.occurrence.body) := by
    rw [leaves_eq, List.flatMap_map, sites, List.map_flatMap]
    refine List.flatMap_congr fun t _ => ?_
    have hbodies : (Template.segments t.text.toList).bodies
        = (Template.find t.text.toList).map Template.Occurrence.body :=
      (Template.map_body_occurrences 0 _).symm
    show (Template.segments t.text.toList).bodies.map _ = _
    rw [hbodies, List.map_map, List.map_map]
    rfl
  rw [entries, hpairs, List.mapM_map]
  rfl

/-- The entries report the placeholders of the tree, one each and in their order. -/
theorem forall₂_reported {node : Value} {es : List Entry} (h : entries node = .ok es) :
    List.Forall₂ Site.Reported (sites node) es := by
  rw [entries_eq] at h
  refine (forall₂_of_mapM_eq_ok h).imp fun x e he => ?_
  obtain ⟨p, hp, he⟩ := bind_eq_ok_iff.1 he
  cases he
  exact ⟨rfl, rfl, hp⟩

/-- A reported text is one of the tree. -/
theorem leaf_mem_of_mem_sites {node : Value} {x : Site} (h : x ∈ sites node) :
    x.leaf ∈ node.placedTexts := by
  obtain ⟨t, ht, hx⟩ := List.mem_flatMap.1 h
  obtain ⟨o, -, rfl⟩ := List.mem_map.1 hx
  exact ht

/-- **What an inspection reports.** An inspection that succeeds reports every placeholder of the
tree once, in document order: with its text, with what is read from its body, and with a location.
If no key on the way to a text is empty or has a dot, the location is a path that leads to that very
text, and the placeholders of two texts have two locations. That the tree is well-formed is no
condition on what is inspected, for any value in memory is.

**Proof sketch.** A location is written from the steps to the text. Its dots are those between the
steps, so it is read back as these steps, and a position is read back as an index. The texts have
places with different steps, since an object has a key only once. -/
theorem entries_located {node : Value} {es : List Entry} (h : entries node = .ok es) :
    List.Forall₂ Site.Reported (sites node) es
    ∧ (node.WellFormed → (∀ t ∈ node.placedTexts, ∀ step ∈ t.place, step.Plain) →
      (∀ p ∈ (sites node).zip es,
        node.get? (String.ofList p.2.location) = some (.str p.1.leaf.text))
      ∧ ∀ p ∈ (sites node).zip es, ∀ q ∈ (sites node).zip es,
        p.1.leaf ≠ q.1.leaf → p.2.location ≠ q.2.location) := by
  have hreported := forall₂_reported h
  have hzip : ∀ p ∈ (sites node).zip es,
      p.1.leaf ∈ node.placedTexts ∧ p.2.location = locationBelow [] p.1.leaf.place := fun p hp =>
    ⟨leaf_mem_of_mem_sites (List.of_mem_zip hp).1,
      ((List.forall₂_iff_zip.1 hreported).2 hp).location_eq⟩
  refine ⟨hreported, fun hwf hplain => ⟨fun p hp => ?_, fun p hp q hq hne heq => hne ?_⟩⟩
  · obtain ⟨hleaf, hlocation⟩ := hzip p hp
    rw [hlocation]
    exact Value.get?_locationBelow (Value.mem_placedTexts_iff.1 hleaf) hwf (hplain _ hleaf)
  · obtain ⟨hleaf, hlocation⟩ := hzip p hp
    obtain ⟨hleaf', hlocation'⟩ := hzip q hq
    rw [hlocation, hlocation'] at heq
    exact List.inj_on_of_nodup_map (nodup_locationBelow hwf.distinct hplain) hleaf hleaf' heq

/-- Keys that look like positions, items of items, and two placeholders in one text. -/
theorem entries_located_of_numeric_keys :
    let node : Value := .obj [
      ("items", .arr [.obj [("0", .str "\x7b\x7ba\x7d\x7d-\x7b\x7bb:int?:1:int\x7d\x7d")], .str "plain",
        .arr [.null, .str "\x7b\x7ba\x7d\x7d"]]),
      ("-1", .obj [("01", .str "\x7b\x7bx|y:json\x7d\x7d"), ("404", .num (.int 1))]),
      ("1", .str "\x7b\x7ba\x7d\x7d")]
    let es := (entries node).toOption.getD []
    entries node = .ok es
      ∧ es.map (fun e => String.ofList e.location)
        = ["items.0.0", "items.0.0", "items.2.1", "-1.01", "1"]
      ∧ node.WellFormed ∧ (∀ t ∈ node.placedTexts, ∀ step ∈ t.place, step.Plain)
      ∧ (∀ p ∈ (sites node).zip es,
        node.get? (String.ofList p.2.location) = some (.str p.1.leaf.text))
      ∧ ∀ p ∈ (sites node).zip es, ∀ q ∈ (sites node).zip es,
        p.1.leaf ≠ q.1.leaf → p.2.location ≠ q.2.location := by
  intro node es
  have hentries : entries node = .ok es := eq_ok_of_toOption (by decide +kernel)
  have hwf : node.WellFormed := by decide +kernel
  have hplain : ∀ t ∈ node.placedTexts, ∀ step ∈ t.place, step.Plain := by decide +kernel
  obtain ⟨-, hlocated⟩ := entries_located hentries
  exact ⟨hentries, by decide +kernel, hwf, hplain, hlocated hwf hplain⟩

end Inspect

end Stencil
