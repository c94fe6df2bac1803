import Stencil.Numeric.Number

/-!
# Document values

The values that templates, contexts and results are made of. Objects are lists of members in the
order in which they were first written.

## Main definitions

* `Stencil.Value` — null, a boolean, a number, a text, an array or an object.
* `Stencil.Value.ofExtended` — the value of a computed double.
* `Stencil.Value.Kind`, `Stencil.Value.kind` — what sort of value it is, with a name for messages.

## Main results

* `Stencil.Value.instDecidableEq` — equality of values is decidable.
-/

set_option autoImplicit false

namespace Stencil

/-- A document value. -/
inductive Value where
  | null
  | bool (b : Bool)
  | num (n : Number)
  | str (s : String)
  | arr (items : List Value)
  | obj (members : List (String × Value))
deriving Inhabited

namespace Value

/-! ## Kinds -/

/-- The six sorts of values. -/
inductive Kind where
  | null
  | boolean
  | number
  | string
  | array
  | object
deriving DecidableEq, Inhabited

/-- The name of a kind in messages. -/
def Kind.name : Kind → String
  | .null => "null"
  | .boolean => "boolean"
  | .number => "number"
  | .string => "string"
  | .array => "array"
  | .object => "object"

/-- The kind of a value. -/
def kind : Value → Kind
  | .null => .null
  | .bool _ => .boolean
  | .num _ => .number
  | .str _ => .string
  | .arr _ => .array
  | .obj _ => .object

/-- The value of a computed double: infinities and not-a-number are null. -/
def ofExtended : Extended → Value
  | .finite x => .num (.float x)
  | .infinite _ | .nan => .null

/-! ## Equality -/

theorem ne_of_kind {v w : Value} (h : v.kind ≠ w.kind) : v ≠ w := fun e => h (e ▸ rfl)

mutual

/-- Decides whether two values are equal. -/
def decideEq : (v w : Value) → Decidable (v = w)
  | .null, w => if h : w.kind = .null then isTrue (by cases w <;> simp_all [kind])
      else isFalse (ne_of_kind (Ne.symm h))
  | .bool a, w =>
    match w with
    | .bool b => decidable_of_iff (a = b) (by simp)
    | .null | .num _ | .str _ | .arr _ | .obj _ => isFalse nofun
  | .num a, w =>
    match w with
    | .num b => decidable_of_iff (a = b) (by simp)
    | .null | .bool _ | .str _ | .arr _ | .obj _ => isFalse nofun
  | .str a, w =>
    match w with
    | .str b => decidable_of_iff (a = b) (by simp)
    | .null | .bool _ | .num _ | .arr _ | .obj _ => isFalse nofun
  | .arr a, w =>
    match w with
    | .arr b => @decidable_of_iff _ (a = b) (by simp) (decideEqItems a b)
    | .null | .bool _ | .num _ | .str _ | .obj _ => isFalse nofun
  | .obj a, w =>
    match w with
    | .obj b => @decidable_of_iff _ (a = b) (by simp) (decideEqMembers a b)
    | .null | .bool _ | .num _ | .str _ | .arr _ => isFalse nofun

/-- Decides whether two lists of items are equal. -/
def decideEqItems : (vs ws : List Value) → Decidable (vs = ws)
  | [], [] => isTrue rfl
  | [], _ :: _ | _ :: _, [] => isFalse nofun
  | v :: vs, w :: ws =>
    match decideEq v w, decideEqItems vs ws with
    | isTrue h, isTrue hs => isTrue (by rw [h, hs])
    | isFalse h, _ => isFalse (by simp [h])
    | _, isFalse hs => isFalse (by simp [hs])

/-- Decides whether two lists of members are equal. -/
def decideEqMembers : (ms ns : List (String × Value)) → Decidable (ms = ns)
  | [], [] => isTrue rfl
  | [], _ :: _ | _ :: _, [] => isFalse nofun
  | (j, v) :: ms, (k, w) :: ns =>
    match decEq j k, decideEq v w, decideEqMembers ms ns with
    | isTrue hk, isTrue h, isTrue hs => isTrue (by rw [hk, h, hs])
    | isFalse hk, _, _ => isFalse (by simp [hk])
    | _, isFalse h, _ => isFalse (by simp [h])
    | _, _, isFalse hs => isFalse (by simp [hs])

end

instance instDecidableEq : DecidableEq Value := decideEq

end Value

end Stencil
