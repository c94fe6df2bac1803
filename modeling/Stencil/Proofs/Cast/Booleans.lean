import Stencil.Proofs.Cast.Repeated
import Stencil.Proofs.Path.Walk
import Stencil.Proofs.Template.Embedded

/-!
# Casts to booleans

The cast by `bool` rewrites leaves: a text that names a boolean becomes that boolean, wherever it
stands in a value, and every other leaf, every key, the order of keys and the length of every array
stay. So a path leads to the same place before the cast and after it, and a placeholder with a
longer path reads a part of what one with a shorter path reads.

## Main definitions

* `Stencil.Value.NamesBool` — a text names a boolean.
* `Stencil.Value.Rewritten` — a value with the texts that name booleans rewritten, and nothing else.

## Main results

* `Stencil.Value.rewritten_iff` — the cast is the one way to rewrite a value.
* `Stencil.Value.step?_toBool`, `Stencil.Value.follow?_toBool` — one step and all steps into a cast
  value.
* `Stencil.Value.render_path_bool` — what a path that is cast to a boolean renders to.
* `Stencil.Value.get?_cast_bool` — the cast and the look-up of a path commute.
-/

set_option autoImplicit false

namespace Stencil.Value

variable {v w : Value} {s : String} {b : Bool}

/-! ## Rewriting leaves -/

/-- Blanks around it aside, the text is the name of the boolean. -/
def NamesBool (s : String) (b : Bool) : Prop := Text.trim s.toList = (toString b).toList

mutual

/-- The second value is the first one with every text that names a boolean replaced by that boolean.
All other leaves are the same, arrays have as many items, and objects the same keys in the same
order. -/
inductive Rewritten : Value → Value → Prop where
  | named {s : String} {b : Bool} (h : NamesBool s b) : Rewritten (.str s) (.bool b)
  | text {s : String} (h : ∀ b, ¬ NamesBool s b) : Rewritten (.str s) (.str s)
  | leaf {v : Value} (h : v.kind ∉ [.string, .array, .object]) : Rewritten v v
  | arr {items items' : List Value} (h : RewrittenItems items items') :
    Rewritten (.arr items) (.arr items')
  | obj {members members' : List (String × Value)} (h : RewrittenMembers members members') :
    Rewritten (.obj members) (.obj members')

/-- The items of two arrays are rewritten one by one. -/
inductive RewrittenItems : List Value → List Value → Prop where
  | nil : RewrittenItems [] []
  | cons {v w : Value} {rest rest' : List Value} (h : Rewritten v w)
      (hrest : RewrittenItems rest rest') : RewrittenItems (v :: rest) (w :: rest')

/-- The members of two objects are rewritten one by one, under the same keys. -/
inductive RewrittenMembers : List (String × Value) → List (String × Value) → Prop where
  | nil : RewrittenMembers [] []
  | cons {key : String} {v w : Value} {rest rest' : List (String × Value)} (h : Rewritten v w)
      (hrest : RewrittenMembers rest rest') :
      RewrittenMembers ((key, v) :: rest) ((key, w) :: rest')

end

/-- A text that names a boolean becomes the boolean. -/
theorem boolOfText_of_namesBool (h : NamesBool s b) : boolOfText s = .bool b := by
  rw [NamesBool] at h
  rw [boolOfText, h]
  cases b <;> rfl

/-- Any other text stays. -/
theorem boolOfText_of_not_namesBool (h : ∀ b, ¬ NamesBool s b) : boolOfText s = .str s := by
  rw [boolOfText]
  exact (if_neg (h true)).trans (if_neg (h false))

/-- A text is rewritten to what it becomes. -/
theorem rewritten_boolOfText (s : String) : Rewritten (.str s) (boolOfText s) := by
  by_cases h : ∃ b, NamesBool s b
  · obtain ⟨b, hb⟩ := h
    rw [boolOfText_of_namesBool hb]
    exact .named hb
  · have hnone := not_exists.1 h
    rw [boolOfText_of_not_namesBool hnone]
    exact .text hnone

/-- Neither a text nor a container is changed by the cast. -/
theorem toBool_of_kind (h : v.kind ∉ [.string, .array, .object]) : v.toBool = v := by
  cases v with
  | str | arr | obj => simp [kind] at h
  | null | bool | num => simp only [toBool]

mutual

/-- A value is rewritten to its cast. -/
theorem rewritten_toBool : (v : Value) → Rewritten v v.toBool
  | .str s => by
    rw [toBool]
    exact rewritten_boolOfText s
  | .arr items => by
    rw [toBool]
    exact .arr (rewrittenItems_toBoolItems items)
  | .obj members => by
    rw [toBool]
    exact .obj (rewrittenMembers_toBoolMembers members)
  | .null | .bool _ | .num _ => by
    simp only [toBool]
    exact .leaf (by simp [kind])

theorem rewrittenItems_toBoolItems : (items : List Value) →
    RewrittenItems items (toBoolItems items)
  | [] => .nil
  | v :: rest => .cons (rewritten_toBool v) (rewrittenItems_toBoolItems rest)

theorem rewrittenMembers_toBoolMembers : (members : List (String × Value)) →
    RewrittenMembers members (toBoolMembers members)
  | [] => .nil
  | (_, v) :: rest => .cons (rewritten_toBool v) (rewrittenMembers_toBoolMembers rest)

end

mutual

/-- A value is rewritten to nothing but its cast. -/
theorem Rewritten.eq_toBool {v w : Value} (h : Rewritten v w) : w = v.toBool := by
  cases h with
  | named h => rw [toBool, boolOfText_of_namesBool h]
  | text h => rw [toBool, boolOfText_of_not_namesBool h]
  | leaf h => exact (toBool_of_kind h).symm
  | arr h => rw [toBool, h.eq_toBoolItems]
  | obj h => rw [toBool, h.eq_toBoolMembers]

theorem RewrittenItems.eq_toBoolItems {items items' : List Value}
    (h : RewrittenItems items items') : items' = toBoolItems items := by
  cases h with
  | nil => rfl
  | cons h hrest => rw [toBoolItems, h.eq_toBool, hrest.eq_toBoolItems]

theorem RewrittenMembers.eq_toBoolMembers {members members' : List (String × Value)}
    (h : RewrittenMembers members members') : members' = toBoolMembers members := by
  cases h with
  | nil => rfl
  | cons h hrest => rw [toBoolMembers, h.eq_toBool, hrest.eq_toBoolMembers]

end

/-- **The cast rewrites leaves.** A value is rewritten to its cast, and to nothing else. -/
theorem rewritten_iff : Rewritten v w ↔ w = v.toBool := by
  constructor
  · exact Rewritten.eq_toBool
  · rintro rfl
    exact rewritten_toBool v

/-! ## Steps -/

/-- The items of an array are cast one by one. -/
theorem toBoolItems_eq_map (items : List Value) : toBoolItems items = items.map toBool := by
  induction items with
  | nil => rfl
  | cons v rest ih => rw [toBoolItems, ih, List.map_cons]

/-- What a key leads to among cast members is the cast of what it led to. -/
theorem get?_toBoolMembers (members : Members) (key : String) :
    Members.get? (toBoolMembers members) key = (Members.get? members key).map toBool := by
  induction members with
  | nil => rfl
  | cons m rest ih =>
    obtain ⟨k, v⟩ := m
    rw [toBoolMembers, Members.get?, Members.get?, ih]
    by_cases h : k = key <;> simp [h]

/-- The item at a position among cast items is the cast of the item there. -/
theorem item?_toBoolItems (items : List Value) (i : Int) :
    item? (toBoolItems items) i = (item? items i).map toBool := by
  rw [toBoolItems_eq_map, item?_eq, item?_eq, List.length_map, List.getElem?_map]
  by_cases h : position items.length i < 0 <;> simp [h]

/-- One step into a cast value leads to the cast of what it led to. A text that has become a boolean
was led into by no step, and is led into by none. -/
theorem step?_toBool (v : Value) (step : Segment) :
    v.toBool.step? step = (v.step? step).map toBool := by
  cases v with
  | str s =>
    have hleaf : (boolOfText s).step? step = none := by
      rw [boolOfText]
      split_ifs <;> rfl
    rw [toBool, hleaf]
    rfl
  | arr items =>
    rw [toBool]
    cases step with
    | key name => rfl
    | index i => exact item?_toBoolItems items i
  | obj members =>
    rw [toBool]
    exact get?_toBoolMembers members step.text
  | null | bool | num =>
    simp only [toBool]
    rfl

/-- All steps of a path lead to the cast of what they led to. -/
theorem follow?_toBool (v : Value) (path : Path) :
    v.toBool.follow? path = (v.follow? path).map toBool := by
  induction path generalizing v with
  | nil => rfl
  | cons step rest ih =>
    rw [follow?, follow?, step?_toBool]
    cases v.step? step with
    | none => rfl
    | some next => exact ih next

/-! ## Rendering -/

open Template (IsBody wrap render)

/-- A placeholder with one path, cast to a boolean, renders to the cast of what the path leads to,
or stays as it is written. -/
theorem render_path_bool {body : List Char} {path : String} {options : Options}
    (hbody : IsBody body) (hparse : Placeholder.parse body = .ok ⟨[⟨path, [.bool]⟩], none⟩)
    (hallowed : options.allows .bool = true) (context : Value) :
    render context options (wrap body)
      = .ok (some (((context.get? path).map toBool).getD (.str (String.ofList (wrap body))))) := by
  have hprepare : Template.prepare options body = .ok ⟨[⟨path, [.bool]⟩], none⟩ := by
    rw [Template.prepare_eq_ok_iff]
    refine ⟨hparse, fun t ht => ?_⟩
    obtain rfl : t = .bool := by simpa [Placeholder.tags] using ht
    exact hallowed
  have hclause : Clause.resolve? ⟨path, [.bool]⟩ context false .whole
      = (context.get? path).map toBool := by
    rw [Clause.resolve?]
    cases context.get? path with
    | none => rfl
    | some v => exact congrArg some (cast_bool .whole v)
  have hresolve : Placeholder.resolve? ⟨[⟨path, [.bool]⟩], none⟩ context .whole
      = (context.get? path).map toBool := by
    rw [← hclause, Placeholder.resolve?, List.findSome?_cons]
    have hignore : Placeholder.ignoresEmptyStr ⟨[⟨path, [.bool]⟩], none⟩ = false := rfl
    rw [hignore]
    cases Clause.resolve? ⟨path, [.bool]⟩ context false .whole <;> rfl
  rw [Template.render_wrap hbody, hprepare]
  simp only [Except.map, Placeholder.outcome?, hresolve]
  cases context.get? path <;> rfl

/-- **The cast to booleans and the look-up of a path commute.** At the end of every path, a cast
value holds the cast of what the value holds there, or nothing where that holds nothing. The cast
replaces the texts that name a boolean, at any depth, and keeps every other leaf, every key, the
order of keys and the length of every array. So a placeholder with the path of a part, cast to a
boolean, renders to that part of what the placeholder with the path in front of it renders to; it
stays as it is written when there is no such part, or nothing at the path in front of it.

**Proof sketch.** One step into a cast value leads to the cast of what it led to, and so do all
steps of a path, by induction on the steps. Two paths with a dot between them are followed one after
the other, the second one into the cast value as well. -/
theorem get?_cast_bool (mode : Mode) (v : Value) :
    (∀ path, (cast mode .bool v).get? path = (v.get? path).map (cast mode .bool))
    ∧ (∀ w, Rewritten v w ↔ w = cast mode .bool v)
    ∧ ∀ (options : Options) (path rest : String) (body part : List Char),
      IsBody body → Placeholder.parse body = .ok ⟨[⟨path, [.bool]⟩], none⟩ →
      IsBody part → Placeholder.parse part = .ok ⟨[⟨path ++ "." ++ rest, [.bool]⟩], none⟩ →
      options.allows .bool = true →
      (∀ u, v.get? path = some u → ∃ r, render v options (wrap body) = .ok (some r)
        ∧ render v options (wrap part)
          = .ok (some ((r.get? rest).getD (.str (String.ofList (wrap part))))))
      ∧ (v.get? path = none →
        render v options (wrap part) = .ok (some (.str (String.ofList (wrap part))))) := by
  have hcast : cast mode .bool = toBool := funext (cast_bool mode)
  have hlookup : ∀ (u : Value) (path : String), u.toBool.get? path = (u.get? path).map toBool :=
    fun u path => follow?_toBool u (Path.ofText path.toList)
  rw [hcast]
  refine ⟨hlookup v, fun w => rewritten_iff, ?_⟩
  intro options path rest body part hbody hread hpart hreadPart hallowed
  rw [render_path_bool hbody hread hallowed, render_path_bool hpart hreadPart hallowed,
    get?_append_dot]
  constructor
  · intro u hu
    refine ⟨u.toBool, by rw [hu]; rfl, ?_⟩
    rw [hu, Option.bind_some, hlookup]
  · intro hnone
    rw [hnone]
    rfl

/-- A text with blanks around the name, a key that is one, a null and a text in capitals, below an
object; the last item of an array, and a path that leads nowhere. -/
theorem get?_cast_bool_of_nested_flags :
    let last : Value := .obj [("true", .str "false"), ("n", .null)]
    let inner : Value := .obj [("b", .arr [.str " true ", last]), ("c", .str "TRUE")]
    let context : Value := .obj [("a", inner)]
    let read : Value := .obj [
      ("b", .arr [.bool true, .obj [("true", .bool false), ("n", .null)]]), ("c", .str "TRUE")]
    let body := "a:bool".toList
    let part := "a.b.-1.true : bool".toList
    let missing := "x.b:bool".toList
    (cast .embedded .bool context).get? "a.b.-2" = some (.bool true)
      ∧ Rewritten context (.obj [("a", read)])
      ∧ IsBody body ∧ Placeholder.parse body = .ok ⟨[⟨"a", [.bool]⟩], none⟩
      ∧ IsBody part ∧ Placeholder.parse part = .ok ⟨[⟨"a.b.-1.true", [.bool]⟩], none⟩
      ∧ render context {} (wrap body) = .ok (some read)
      ∧ render context {} (wrap part) = .ok (some (.bool false))
      ∧ IsBody missing ∧ Placeholder.parse missing = .ok ⟨[⟨"x.b", [.bool]⟩], none⟩
      ∧ context.get? "x" = none
      ∧ render context {} (wrap missing) = .ok (some (.str (String.ofList (wrap missing)))) := by
  intro last inner context read body part missing
  obtain ⟨hlookup, hrewritten, hrender⟩ := get?_cast_bool .embedded context
  have hbody : IsBody body := ⟨by decide +kernel, List.all_eq_true.1 (by decide +kernel)⟩
  have hpart : IsBody part := ⟨by decide +kernel, List.all_eq_true.1 (by decide +kernel)⟩
  have hmissing : IsBody missing := ⟨by decide +kernel, List.all_eq_true.1 (by decide +kernel)⟩
  have hparse : Placeholder.parse body = .ok ⟨[⟨"a", [.bool]⟩], none⟩ :=
    eq_ok_of_toOption (by decide +kernel)
  have hparsePart : Placeholder.parse part = .ok ⟨[⟨"a" ++ "." ++ "b.-1.true", [.bool]⟩], none⟩ :=
    eq_ok_of_toOption (by decide +kernel)
  have hparseMissing : Placeholder.parse missing = .ok ⟨[⟨"x" ++ "." ++ "b", [.bool]⟩], none⟩ :=
    eq_ok_of_toOption (by decide +kernel)
  have hparseOuter : Placeholder.parse "x:bool".toList = .ok ⟨[⟨"x", [.bool]⟩], none⟩ :=
    eq_ok_of_toOption (by decide +kernel)
  have houter : IsBody "x:bool".toList :=
    ⟨by decide +kernel, List.all_eq_true.1 (by decide +kernel)⟩
  have hread : render context {} (wrap body) = .ok (some read) :=
    eq_ok_of_toOption (by decide +kernel)
  have hnone : context.get? "x" = none := by decide +kernel
  have hinner : context.get? "a" = some inner := by decide +kernel
  obtain ⟨r, hr, hresult⟩ :=
    (hrender {} "a" "b.-1.true" body part hbody hparse hpart hparsePart rfl).1 inner hinner
  have hunread :=
    (hrender {} "x" "b" _ missing houter hparseOuter hmissing hparseMissing rfl).2 hnone
  refine ⟨?_, (hrewritten _).2 (by decide +kernel), hbody, hparse, hpart, hparsePart, hread, ?_,
    hmissing, hparseMissing, hnone, hunread⟩
  · rw [hlookup]
    decide +kernel
  · rw [hread] at hr
    cases hr
    rw [hresult]
    rfl

end Stencil.Value
