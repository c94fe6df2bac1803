import Stencil.Value.Basic

/-!
# Members of an object

An object keeps its members in the order of their first appearance: writing an existing key keeps
the member's place, and a new key goes last.

## Main definitions

* `Stencil.Members.get?`, `Stencil.Members.set`, `Stencil.Members.erase` — look-up, writing and
  removal by key.
* `Stencil.Members.ofList` — members from pairs in which a key may come twice.

## Main results

* `Stencil.Members.get?_set_self`, `Stencil.Members.get?_set_of_ne` — a write changes its own key
  and no other.
* `Stencil.Members.get?_erase_self` — a removed key is gone.
-/

set_option autoImplicit false

namespace Stencil

/-- The members of an object, in order. -/
abbrev Members := List (String × Value)

namespace Members

variable {α : Type}

/-- What the first member with this key holds. -/
def get? (ms : List (String × α)) (key : String) : Option α :=
  match ms with
  | [] => none
  | (k, v) :: rest => if k = key then some v else get? rest key

/-- The members with `key` holding `v`: in its place when the key is there, else at the end. -/
def set (ms : List (String × α)) (key : String) (v : α) : List (String × α) :=
  match ms with
  | [] => [(key, v)]
  | (k, w) :: rest => if k = key then (k, v) :: rest else (k, w) :: set rest key v

/-- The members whose key is another one. -/
def erase (ms : List (String × α)) (key : String) : List (String × α) :=
  ms.filter fun m => m.1 ≠ key

/-- The keys in order. -/
def keys (ms : List (String × α)) : List String := ms.map Prod.fst

/-- The members that pairs written one after the other make: a repeated key keeps its first place
and its last value. -/
def ofList (pairs : List (String × α)) : List (String × α) :=
  pairs.foldl (fun ms m => set ms m.1 m.2) []

theorem get?_set_self (ms : List (String × α)) (key : String) (v : α) :
    get? (set ms key v) key = some v := by
  induction ms with
  | nil => simp [set, get?]
  | cons m rest ih =>
    by_cases h : m.1 = key
    · simp [set, get?, h]
    · simp [set, get?, h, ih]

theorem get?_set_of_ne {ms : List (String × α)} {key other : String} {v : α} (h : other ≠ key) :
    get? (set ms key v) other = get? ms other := by
  induction ms with
  | nil => simp [set, get?, h.symm]
  | cons m rest ih =>
    by_cases ho : m.1 = other
    · simp [set, get?, ho, h]
    · by_cases hk : m.1 = key
      · simp [set, get?, hk, h.symm]
      · simp [set, get?, hk, ho, ih]

theorem erase_cons (m : String × α) (rest : List (String × α)) (key : String) :
    erase (m :: rest) key = if m.1 = key then erase rest key else m :: erase rest key := by
  by_cases h : m.1 = key <;> simp [erase, h]

theorem get?_erase_self (ms : List (String × α)) (key : String) : get? (erase ms key) key = none := by
  induction ms with
  | nil => rfl
  | cons m rest ih =>
    rw [erase_cons]
    by_cases h : m.1 = key
    · rwa [if_pos h]
    · rw [if_neg h, get?, if_neg h, ih]

end Members

end Stencil
