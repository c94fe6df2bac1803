import Stencil.Proofs.Value.Merging

/-!
# Sources in turn

Sources are laid over members one after the other, and each source member by member. Seen from one
key, only the sources that have the key take part, in their order; seen from the keys, each source
adds those that have not been there yet, behind the others.

## Main definitions

* `Stencil.Members.heldIn` — what the sources with a key hold under it.
* `Stencil.Members.stacked?` — values laid over what is there, if anything, one after the other.

## Main results

* `Stencil.Members.keys_mergeSources` — the keys, in their order.
* `Stencil.Members.get?_mergeSources_eq_stacked?` — what is found under a key.
* `Stencil.Members.mergeSources_filter_object`, `Stencil.Members.mergeSources_append` — other values
  than objects have no effect, and a list of sources may be split anywhere.
* `Stencil.Members.mergeSources_keywise` — all of it together.
-/

set_option autoImplicit false

namespace Stencil

/-- A list in which nothing comes twice is what is left of it when repetitions are dropped. -/
theorem eraseDups_of_nodup {α : Type} [BEq α] [LawfulBEq α] {l : List α} (h : l.Nodup) :
    l.eraseDups = l := by
  induction l with
  | nil => rfl
  | cons a l ih =>
    obtain ⟨ha, hl⟩ := List.nodup_cons.1 h
    have hothers : l.filter (fun b => !b == a) = l := by
      refine List.filter_eq_self.2 fun b hb => ?_
      have hne : b ≠ a := fun hba => ha (hba ▸ hb)
      simpa using hne
    rw [List.eraseDups_cons, hothers, ih hl]

namespace Members

variable {policy : ArrayPolicy} {sources : List Value}

/-! ## Keys -/

/-- A source puts the keys that are new behind those that are there; a value that is no object has
no keys. -/
theorem keys_mergeSource {source : Value} (hsource : source.keys.Nodup) (base : Members) :
    keys (mergeSource policy base source)
      = keys base ++ source.keys.filter fun key => key ∉ keys base := by
  cases source with
  | obj upper => exact keys_merge hsource base
  | null | bool | num | str | arr => exact (List.append_nil _).symm

/-- The sources put the keys that are new behind those that are there, each in the place in which it
comes first.

**Proof sketch.** By induction on the sources. The new keys of the first source come first, each of
them once; those of the other sources are new when they are neither among these nor in the
members. -/
theorem keys_mergeSources (hsources : ∀ s ∈ sources, s.keys.Nodup) (base : Members) :
    keys (mergeSources policy base sources)
      = keys base
        ++ ((sources.flatMap Value.keys).filter fun key => key ∉ keys base).eraseDups := by
  induction sources generalizing base with
  | nil => exact (List.append_nil _).symm
  | cons source rest ih =>
    rw [List.forall_mem_cons] at hsources
    obtain ⟨hsource, hrest⟩ := hsources
    set new := source.keys.filter fun key => key ∉ keys base with hnew
    have hfirst : keys (mergeSource policy base source) = keys base ++ new :=
      keys_mergeSource hsource base
    have hnodup : new.Nodup := hsource.filter _
    have hlater : ((rest.flatMap Value.keys).filter fun key => key ∉ keys base ++ new)
        = ((rest.flatMap Value.keys).filter fun key => key ∉ keys base).removeAll new := by
      rw [List.removeAll, List.filter_filter]
      refine List.filter_congr fun key _ => ?_
      simp [Bool.and_comm]
    rw [mergeSources, List.foldl_cons, ← mergeSources, ih hrest, hfirst, hlater, List.flatMap_cons,
      List.filter_append, ← hnew, List.eraseDups_append, eraseDups_of_nodup hnodup,
      List.append_assoc]

/-! ## What is found under a key -/

/-- What the sources that have a member with this key hold under it, in their order. -/
def heldIn (key : String) (sources : List Value) : List Value :=
  sources.filterMap fun source => source.step? (.key key)

/-- What the first source holds comes first, if it has the key. -/
theorem heldIn_cons (key : String) (source : Value) (rest : List Value) :
    heldIn key (source :: rest) = (source.step? (.key key)).toList ++ heldIn key rest := by
  rw [heldIn, List.filterMap_cons, heldIn]
  cases source.step? (.key key) <;> rfl

/-- Values laid one after the other over what is there; where nothing is there, the first one is
what the others are laid over. -/
def stacked? (policy : ArrayPolicy) : Option Value → List Value → Option Value
  | some base, uppers => some (uppers.foldl (Value.merge policy) base)
  | none, [] => none
  | none, first :: uppers => some (uppers.foldl (Value.merge policy) first)

/-- The first of the values is laid over what is there, and the others over that. -/
theorem stacked?_cons (held? : Option Value) (v : Value) (uppers : List Value) :
    stacked? policy held? (v :: uppers)
      = stacked? policy (Option.merge (Value.merge policy) held? (some v)) uppers := by
  cases held? <;> rfl

/-- Sources that are laid over each other under a key are what they hold there, laid over each
other. -/
theorem foldl_layOver (key : String) (held? : Option Value) (sources : List Value) :
    sources.foldl (layOver policy key) held? = stacked? policy held? (heldIn key sources) := by
  induction sources generalizing held? with
  | nil => cases held? <;> rfl
  | cons source rest ih =>
    rw [List.foldl_cons, ih, layOver, heldIn_cons]
    cases source.step? (.key key) with
    | none => rw [Option.merge_none_right, Option.toList_none, List.nil_append]
    | some v => rw [Option.toList_some, List.singleton_append, stacked?_cons]

/-- Under a key, sources leave what those with the key hold there, laid over what the members hold
there. -/
theorem get?_mergeSources_eq_stacked? (hsources : ∀ s ∈ sources, s.keys.Nodup) (base : Members)
    (key : String) :
    get? (mergeSources policy base sources) key
      = stacked? policy (get? base key) (heldIn key sources) := by
  rw [get?_mergeSources hsources, foldl_layOver]

/-! ## The list of sources -/

/-- Only the objects among the sources count. -/
theorem mergeSources_filter_object (base : Members) (sources : List Value) :
    mergeSources policy base (sources.filter fun s => s.kind = .object)
      = mergeSources policy base sources := by
  rw [mergeSources, List.foldl_filter, mergeSources]
  congr 1
  funext base source
  cases source <;> rfl

/-- Sources behind others are laid over what those leave. -/
theorem mergeSources_append (base : Members) (before after : List Value) :
    mergeSources policy base (before ++ after)
      = mergeSources policy (mergeSources policy base before) after :=
  List.foldl_append

/-- **Sources, key by key.** No source has a key twice. When sources are laid over members one after
the other:

* the keys of the members come first, in their order, and behind them each new key in the place in
  which it comes first in the sources;
* under each key, what the sources with the key hold is laid, in their order, over what the members
  hold, or over what the first of these sources holds where the members hold nothing;
* sources that are no objects have no effect;
* the list of sources may be split anywhere.

**Proof sketch.** The keys are those of one source at a time (`keys_mergeSource`). Under a key, a
source without the key leaves what is there, so that only those with the key are left of the fold
over all sources. -/
theorem mergeSources_keywise (policy : ArrayPolicy) (base : Members)
    (hsources : ∀ s ∈ sources, s.keys.Nodup) :
    keys (mergeSources policy base sources)
        = keys base ++ ((sources.flatMap Value.keys).filter fun key => key ∉ keys base).eraseDups
      ∧ (∀ key, get? (mergeSources policy base sources) key
        = stacked? policy (get? base key) (heldIn key sources))
      ∧ mergeSources policy base (sources.filter fun s => s.kind = .object)
        = mergeSources policy base sources
      ∧ ∀ before after, mergeSources policy base (before ++ after)
        = mergeSources policy (mergeSources policy base before) after :=
  ⟨keys_mergeSources hsources base, get?_mergeSources_eq_stacked? hsources base,
    mergeSources_filter_object base sources, mergeSources_append base⟩

/-- Four sources, two of which are no objects: a key that only the later one has, a key that both
have and the members have not, an array that is joined and a text that is replaced. -/
theorem mergeSources_keywise_of_overlapping_sources :
    let base : Members := [("l", .arr [.null]), ("t", .str "u")]
    let sources : List Value := [
      .obj [("b", .obj [("x", .null)]), ("l", .arr [.bool true])],
      .str "skipped",
      .arr [.obj [("t", .null)]],
      .obj [("c", .null), ("t", .bool false), ("b", .obj [("y", .arr [])]), ("l", .arr [.str ""])]]
    let r := mergeSources .concat base sources
    (∀ s ∈ sources, s.keys.Nodup)
      ∧ keys r = ["l", "t", "b", "c"]
      ∧ get? r "b" = some (.obj [("x", .null), ("y", .arr [])])
      ∧ get? r "l" = some (.arr [.null, .bool true, .str ""])
      ∧ get? r "t" = some (.bool false) ∧ get? r "c" = some .null ∧ get? r "d" = none := by
  intro base sources r
  have hsources : ∀ s ∈ sources, s.keys.Nodup := by decide +kernel
  obtain ⟨hkeys, hheld, -, -⟩ := mergeSources_keywise .concat base hsources
  refine ⟨hsources, ?_, ?_, ?_, ?_, ?_, ?_⟩
  · rw [hkeys]
    decide +kernel
  all_goals
    rw [hheld]
    decide +kernel

end Members

end Stencil
