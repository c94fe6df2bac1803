import Mathlib.Data.List.Induction
import Stencil.Proofs.Tree.Normal
import Stencil.Proofs.Tree.Rounds

/-!
# Precedence among merge sources

The sources of a directive are laid over the members in their order, so of those with a key the last
one decides when what it has there is no container. A source may itself bring in a directive; it is
applied in a later round, behind all sources of the first one. So the last word on a key is with the
last source of the last round that has the key.

## Main definitions

* `Stencil.Tree.lastHeld?` — what the last source with a key has under it.

## Main results

* `Stencil.Tree.Rounds.get?_settled` — what the rounds leave under a key.
* `Stencil.Tree.Rounds.hereditary` — the directives of later rounds are made of those in the
  sources.
* `Stencil.Tree.applyMerges?_last_source` — the last source with a key decides.
* `Stencil.Tree.applyMerges?_nested_source` — a directive in an earlier source against a later
  source.
-/

set_option autoImplicit false

namespace Stencil.Tree

variable {options : Options} {policy : ArrayPolicy} {members settled : Members} {key : String}
  {directive : Value} {directives : List Value}

/-! ## The last source with a key -/

/-- What the last of these sources that has a member with this key has under it. -/
def lastHeld? (key : String) (sources : List Value) : Option Value :=
  sources.reverse.findSome? fun source => source.step? (.key key)

/-- A source behind others decides when it has the key. -/
theorem lastHeld?_concat (key : String) (before : List Value) (source : Value) :
    lastHeld? key (before ++ [source])
      = (source.step? (.key key)).or (lastHeld? key before) := by
  rw [lastHeld?, List.reverse_concat, List.findSome?_cons]
  cases source.step? (.key key) <;> rfl

/-- Sources behind others, none of which has the key, have no part in it. -/
theorem lastHeld?_append_of_eq_none {before after : List Value}
    (h : lastHeld? key after = none) :
    lastHeld? key (before ++ after) = lastHeld? key before := by
  rw [lastHeld?] at h
  rw [lastHeld?, List.reverse_append, List.findSome?_append, h, Option.none_or, lastHeld?]

/-- What the last source with a key has under it is held in the end, when it is no container.

**Proof sketch.** By induction on the sources from the last one: it replaces what is held, or it has
no part in it and those before it decide. -/
theorem foldl_layOver_of_lastHeld? {v : Value} (hv : v.kind ∉ [.array, .object])
    (held? : Option Value) {sources : List Value} (h : lastHeld? key sources = some v) :
    sources.foldl (Members.layOver policy key) held? = some v := by
  induction sources using List.reverseRecOn with
  | nil => cases h
  | append_singleton before source ih =>
    rw [lastHeld?_concat] at h
    rw [List.foldl_append, List.foldl_cons, List.foldl_nil, Members.layOver]
    cases hsource : source.step? (.key key) with
    | none =>
      rw [hsource, Option.none_or] at h
      rw [Option.merge_none_right, ih h]
    | some w =>
      rw [hsource, Option.some_or, Option.some_inj] at h
      rw [h]
      cases before.foldl (Members.layOver policy key) held? with
      | none => rfl
      | some base => exact congrArg some (Value.merge_of_kind hv base)

/-! ## What a round leaves -/

/-- In the sources of an object in which no key comes twice, none does. -/
theorem distinct_sources (hdistinct : (Value.obj members).Distinct)
    (h : Members.get? members options.mergeKey = some directive) :
    ∀ s ∈ sources directive, s.Distinct := by
  have hdirective : directive.Distinct := hereditary_directive hereditary_distinct hdistinct h
  exact hereditary_sources hereditary_distinct hdirective

/-- After a round, what is found under the merge key comes from the sources alone. -/
theorem get?_round_mergeKey (hdistinct : (Value.obj members).Distinct)
    (h : Members.get? members options.mergeKey = some directive) :
    Members.get? (round options members directive) options.mergeKey
      = (sources directive).foldl (Members.layOver options.arrays options.mergeKey) none := by
  have hsources := distinct_sources hdistinct h
  rw [round, Members.get?_mergeSources fun s hs => (hsources s hs).keys, Members.get?_erase_self]

/-- After a round, what is found under another key is what was there with the sources laid over
it. -/
theorem get?_round_of_ne (hdistinct : (Value.obj members).Distinct)
    (h : Members.get? members options.mergeKey = some directive) (hkey : key ≠ options.mergeKey) :
    Members.get? (round options members directive) key
      = (sources directive).foldl (Members.layOver options.arrays key)
        (Members.get? members key) := by
  have hsources := distinct_sources hdistinct h
  rw [round, Members.get?_mergeSources fun s hs => (hsources s hs).keys,
    Members.get?_erase_of_ne hkey]

/-! ## What the rounds leave -/

/-- Under a key, the rounds leave what was there with the sources of all rounds laid over it. -/
theorem Rounds.get?_settled (h : Rounds options members directives settled)
    (hdistinct : (Value.obj members).Distinct) (hkey : key ≠ options.mergeKey) :
    Members.get? settled key
      = (directives.flatMap sources).foldl (Members.layOver options.arrays key)
        (Members.get? members key) := by
  induction h with
  | done _ => rfl
  | next hdirective _ ih =>
    rw [ih (hereditary_round hereditary_distinct hdistinct hdirective),
      get?_round_of_ne hdistinct hdirective hkey, List.flatMap_cons, List.foldl_append]

/-- The hereditary properties of the first directive are those of all directives: a later directive
is made of directives in the sources of the one before it. -/
theorem Rounds.hereditary {P : Value → Prop} {K : List String → Prop} (hP : Hereditary P K)
    (h : Rounds options members directives settled) (hdistinct : (Value.obj members).Distinct)
    (hfirst : ∀ d, Members.get? members options.mergeKey = some d → P d) :
    ∀ d ∈ directives, P d := by
  induction h with
  | done _ => exact fun d hd => absurd hd List.not_mem_nil
  | next hdirective _ ih =>
    have hheld := hfirst _ hdirective
    have hround := hereditary_round hereditary_distinct hdistinct hdirective
    rw [List.forall_mem_cons]
    refine ⟨hheld, ih hround fun d hd => ?_⟩
    rw [get?_round_mergeKey hdistinct hdirective] at hd
    have hnested : ∀ s ∈ sources _, ∀ v ∈ s.step? (.key options.mergeKey), P v :=
      fun s hs v hv => hP.of_step? (hereditary_sources hP hheld s hs) hv
    exact hP.layOver hnested (by simp) d hd

/-- Sources that lack a key hold nothing under it. -/
theorem lastHeld?_eq_none {sources : List Value} (h : ∀ s ∈ sources, s.LacksKey key) :
    lastHeld? key sources = none := by
  rw [lastHeld?, List.findSome?_eq_none_iff]
  intro s hs
  have hkeys : key ∉ s.keys := (h s (List.mem_reverse.1 hs)).keys
  cases s with
  | obj members => exact Members.not_mem_keys_iff.1 hkeys
  | null | bool | num | str | arr => rfl

/-- When a key occurs nowhere in the directives inside the sources of a round, no source of a later
round has it. -/
theorem lastHeld?_later_eq_none {entries later : List Value}
    (hrounds : Rounds options (round options members (.arr entries)) later settled)
    (hdistinct : (Value.obj members).Distinct)
    (hentries : Members.get? members options.mergeKey = some (.arr entries))
    (hnested : ∀ e ∈ entries, ∀ d ∈ e.step? (.key options.mergeKey), d.LacksKey key) :
    lastHeld? key (later.flatMap sources) = none := by
  have hlacks := hereditary_lacksKey key
  have hround := hereditary_round hereditary_distinct hdistinct hentries
  have hlater : ∀ d ∈ later, d.LacksKey key := by
    refine hrounds.hereditary hlacks hround fun d hd => ?_
    rw [get?_round_mergeKey hdistinct hentries] at hd
    exact hlacks.layOver hnested (by simp) d hd
  apply lastHeld?_eq_none
  intro s hs
  obtain ⟨d, hd, hs⟩ := List.mem_flatMap.1 hs
  exact hereditary_sources hlacks (hlater d hd) s hs

/-! ## The merge pass -/

/-- What the settled members of an object hold that is no container is kept below the root. -/
theorem exists_applyMerges?_of_get?_settle (options : Options) (levels : Nat) (members : Members) :
    ∃ r, applyMerges? options (levels + 2) (.obj members) = some (.obj r)
      ∧ ∀ (key : String) (v : Value), v.kind ∉ [.array, .object] →
        Members.get? (settle options members) key = some v → Members.get? r key = some v := by
  refine ⟨_, rfl, fun key v hv hsettle => ?_⟩
  refine Members.get?_filterMap_value hsettle ?_
  cases v with
  | null | bool | num | str => rfl
  | arr | obj => simp [Value.kind] at hv

/-- **The last source with a key decides.** Let an object, in which no key comes twice at any depth,
hold a list of sources under the merge key, and take any other key. The rounds of the object begin
with that list. If a source of a later round has the key, the last one that has it decides, and
otherwise the last one on the list: what it has there, if no container, is what the merge pass
leaves there, whatever the other members and sources are. No source of a later round has the key
when it occurs nowhere in the directives inside the sources on the list.

**Proof sketch.** Under a key, the rounds leave what was there with the sources of all rounds laid
over it (`Rounds.get?_settled`), and a value that is no container replaces what it is laid over. The
directives of later rounds are made of those inside the sources on the list. -/
theorem applyMerges?_last_source {options : Options} {members : Members} {entries : List Value}
    {key : String} (hdistinct : (Value.obj members).Distinct) (hdepth : 1 ≤ options.maxDepth)
    (hkey : key ≠ options.mergeKey)
    (hentries : Members.get? members options.mergeKey = some (.arr entries)) :
    ∃ later r, Rounds options members (.arr entries :: later) (settle options members)
      ∧ applyMerges? options (options.maxDepth + 1) (.obj members) = some (.obj r)
      ∧ ∀ v : Value, v.kind ∉ [.array, .object] →
        (lastHeld? key (entries ++ later.flatMap sources) = some v →
          Members.get? r key = some v)
        ∧ (lastHeld? key entries = some v → lastHeld? key (later.flatMap sources) = none →
          Members.get? r key = some v)
        ∧ (lastHeld? key entries = some v →
          (∀ e ∈ entries, ∀ d ∈ e.step? (.key options.mergeKey), d.LacksKey key) →
          Members.get? r key = some v) := by
  obtain ⟨directives, hrounds⟩ := exists_rounds options members
  obtain ⟨later, rfl, hlater⟩ := hrounds.exists_eq_cons hentries
  obtain ⟨levels, hlevels⟩ := Nat.exists_eq_add_of_le' hdepth
  obtain ⟨r, hr, hkept⟩ := exists_applyMerges?_of_get?_settle options levels members
  rw [hlevels]
  refine ⟨later, r, hrounds, hr, fun v hv => ?_⟩
  have hlast : lastHeld? key (entries ++ later.flatMap sources) = some v →
      Members.get? r key = some v := by
    intro hheld
    apply hkept key v hv
    rw [hrounds.get?_settled hdistinct hkey, List.flatMap_cons]
    exact foldl_layOver_of_lastHeld? hv _ hheld
  have hfirst : lastHeld? key entries = some v → lastHeld? key (later.flatMap sources) = none →
      Members.get? r key = some v := by
    intro hheld hnone
    apply hlast
    rw [lastHeld?_append_of_eq_none hnone, hheld]
  refine ⟨hlast, hfirst, fun hheld hnested => ?_⟩
  exact hfirst hheld (lastHeld?_later_eq_none hlater hdistinct hentries hnested)

/-- Three sources have the key, and two bring in directives; the first two and the member below them
hold containers under it. -/
theorem applyMerges?_last_source_of_silent_directives :
    let options : Options := {}
    let entries : List Value := [
      .obj [("mode", .arr [.null]), ("$truto_merge", .arr [.obj [("x", .null)]])],
      .str "skipped",
      .obj [("mode", .obj [("$truto_merge", .obj [("mode", .null)])])],
      .obj [("$truto_merge", .arr [.obj [("y", .obj []), ("$truto_merge", .null)]]),
        ("mode", .str "last")]]
    let members : Members :=
      [("mode", .arr [.bool true]), ("$truto_merge", .arr entries), ("keep", .null)]
    (Value.obj members).Distinct ∧ 1 ≤ options.maxDepth ∧ "mode" ≠ options.mergeKey
      ∧ Members.get? members options.mergeKey = some (.arr entries)
      ∧ ∃ r, applyMerges? options (options.maxDepth + 1) (.obj members) = some (.obj r)
        ∧ Members.get? r "mode" = some (.str "last") := by
  intro options entries members
  have hdistinct : (Value.obj members).Distinct := by decide +kernel
  have hdepth : 1 ≤ options.maxDepth := by decide
  have hkey : "mode" ≠ options.mergeKey := by decide
  have hentries : Members.get? members options.mergeKey = some (.arr entries) := by
    decide +kernel
  obtain ⟨later, r, -, hr, hdecides⟩ := applyMerges?_last_source hdistinct hdepth hkey hentries
  have hlast := (hdecides (.str "last") (by decide)).2.2 (by decide +kernel) (by decide +kernel)
  exact ⟨hdistinct, hdepth, hkey, hentries, r, hr, hlast⟩

/-- A directive inside a source decides against a later source on the list, which is the last one on
it with the key. -/
theorem applyMerges?_nested_source :
    let options : Options := {}
    let entries : List Value :=
      [.obj [("$truto_merge", .obj [("a", .num (.int 1))])], .obj [("a", .num (.int 2))]]
    let members : Members := [("$truto_merge", .arr entries)]
    let r : Members := [("a", .num (.int 1))]
    (Value.obj members).Distinct ∧ 1 ≤ options.maxDepth ∧ "a" ≠ options.mergeKey
      ∧ Members.get? members options.mergeKey = some (.arr entries)
      ∧ lastHeld? "a" entries = some (.num (.int 2))
      ∧ applyMerges? options (options.maxDepth + 1) (.obj members) = some (.obj r)
      ∧ Members.get? r "a" ≠ some (.num (.int 2)) := by
  decide +kernel

end Stencil.Tree
