import Stencil.Error

/-!
# Options of a rendering

## Main definitions

* `Stencil.ArrayPolicy` — what becomes of two arrays that meet in a merge.
* `Stencil.Options` — the options of a rendering.
* `Stencil.Options.validate` — refuses options that make no sense.
* `Stencil.Options.parse` — the options of a document, validated.
* `Stencil.Options.allows` — the tags that templates may use.

## Main results

* `Stencil.Options.validate_eq_ok_iff` — which options pass.
-/

set_option autoImplicit false

namespace Stencil

/-- What becomes of two arrays that meet in a merge. -/
inductive ArrayPolicy where
  /-- The items of the first, then those of the second. -/
  | concat
  /-- The second array. -/
  | replace
deriving DecidableEq, Inhabited

/-- The options of a rendering. -/
structure Options where
  /-- The key of the member that holds merge sources. -/
  mergeKey : String := "$truto_merge"
  /-- The greatest depth at which a node is kept; the root is at depth zero. -/
  maxDepth : Nat := 128
  /-- What becomes of two arrays that meet in a merge. -/
  arrays : ArrayPolicy := .concat
  /-- The tags that templates may use, when they are restricted. -/
  allowedTags : Option (List Tag) := none
deriving DecidableEq, Inhabited

namespace Options

/-- Templates may use the tag. -/
def allows (options : Options) (tag : Tag) : Bool :=
  match options.allowedTags with
  | none => true
  | some tags => tags.contains tag

/-- Options need a merge key and at least one level; the key is looked at first. -/
def validate (options : Options) : Except OptionsError Unit :=
  if options.mergeKey = "" then .error .emptyMergeKey
  else if options.maxDepth = 0 then .error .zeroDepth
  else .ok ()

theorem validate_eq_ok_iff {options : Options} :
    options.validate = .ok () ↔ options.mergeKey ≠ "" ∧ options.maxDepth ≠ 0 := by
  unfold validate
  by_cases hk : options.mergeKey = "" <;> by_cases hd : options.maxDepth = 0 <;> simp [hk, hd]

/-- The options that `read` finds in a document, validated. -/
def parse (read : List Char → Except Account Options) (content : List Char) :
    Except OptionsError Options := do
  let options ← (read content).mapError fun account => @OptionsError.malformed account
  options.validate
  return options

theorem parse_of_error {read : List Char → Except Account Options} {content : List Char}
    {account : Account} (h : read content = .error account) :
    parse read content = .error (@OptionsError.malformed account) := by
  rw [parse, h]
  rfl

theorem parse_of_ok {read : List Char → Except Account Options} {content : List Char}
    {options : Options} (h : read content = .ok options) :
    parse read content = options.validate >>= fun _ => pure options := by
  rw [parse, h]
  rfl

end Options

end Stencil
