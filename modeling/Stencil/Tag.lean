/-!
# Tags

The nine tags that may follow a path or a fallback after a colon. The first tag selects how the
value is cast; three of them also modify what the whole placeholder does when nothing resolves.

## Main definitions

* `Stencil.Tag` — the tags.
* `Stencil.Tag.name`, `Stencil.Tag.ofName?` — their written names.
* `Stencil.Tag.isModifier` — the tags that act on the whole placeholder.

## Main results

* `Stencil.Tag.ofName?_eq_some_iff` — a name stands for a tag exactly when it is that tag's name.
-/

set_option autoImplicit false

namespace Stencil

/-- A tag. -/
inductive Tag where
  | str
  | int
  | num
  | bool
  | json
  | null
  | any
  | ignoreEmptyStr
  | undefined
deriving DecidableEq, Inhabited

namespace Tag

/-- All tags, in their order. -/
def all : List Tag := [str, int, num, bool, json, null, any, ignoreEmptyStr, undefined]

/-- The written name of a tag. -/
def name : Tag → String
  | str => "str"
  | int => "int"
  | num => "num"
  | bool => "bool"
  | json => "json"
  | null => "null"
  | any => "any"
  | ignoreEmptyStr => "ignore-empty-str"
  | undefined => "undefined"

/-- The tag with this name. -/
def ofName? (s : String) : Option Tag := all.find? fun t => t.name = s

/-- The tag acts on the whole placeholder, besides casting. -/
def isModifier : Tag → Bool
  | null | undefined | ignoreEmptyStr => true
  | str | int | num | bool | json | any => false

theorem mem_all (t : Tag) : t ∈ all := by
  cases t <;> decide

theorem ofName?_name (t : Tag) : ofName? t.name = some t := by
  cases t <;> decide

theorem ofName?_eq_some_iff {s : String} {t : Tag} : ofName? s = some t ↔ t.name = s := by
  constructor
  · intro h
    simpa using List.find?_some h
  · intro h
    exact h ▸ ofName?_name t

end Tag

end Stencil
