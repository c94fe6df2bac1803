import Mathlib.Data.List.Basic
import Stencil.Proofs.Tree.Fault

/-!
# What a tree reads

A placeholder names the paths of its alternatives, and a tree those of its placeholders down to the
depth limit. The context is looked up at these paths and nowhere else, so two contexts that hold the
same there are rendered into alike, whatever else they hold.

## Main definitions

* `Stencil.Value.AgreeOn` — two contexts hold the same at some paths.
* `Stencil.Placeholder.paths`, `Stencil.Template.paths`, `Stencil.Tree.paths` — the paths that a
  placeholder, its body and a tree name.

## Main results

* `Stencil.Placeholder.outcome?_congr`, `Stencil.Template.render_congr`,
  `Stencil.Tree.substitute_congr` — only the named paths count for a placeholder, a template and the
  substitution.
* `Stencil.Tree.replace_congr` — a tree reads only what it names.
-/

set_option autoImplicit false

namespace Stencil

variable {context context' : Value} {options : Options}

/-- At each of the paths, two contexts hold the same value or nothing both. -/
def Value.AgreeOn (paths : List String) (context context' : Value) : Prop :=
  ∀ path ∈ paths, context.get? path = context'.get? path

instance Value.instDecidableAgreeOn (paths : List String) (context context' : Value) :
    Decidable (Value.AgreeOn paths context context') :=
  inferInstanceAs (Decidable (∀ path ∈ paths, context.get? path = context'.get? path))

/-! ## A placeholder -/

/-- An alternative looks its own path up. -/
theorem Clause.resolve?_congr {c : Clause} (h : context.get? c.path = context'.get? c.path)
    (ignoreEmpty : Bool) (mode : Mode) :
    c.resolve? context ignoreEmpty mode = c.resolve? context' ignoreEmpty mode := by
  rw [Clause.resolve?, Clause.resolve?, h]

namespace Placeholder

/-- The paths of the alternatives. -/
def paths (p : Placeholder) : List String := p.clauses.map Clause.path

/-- A placeholder looks the paths of its alternatives up. -/
theorem resolve?_congr {p : Placeholder} (h : Value.AgreeOn p.paths context context')
    (mode : Mode) : p.resolve? context mode = p.resolve? context' mode := by
  rw [resolve?, resolve?]
  exact findSome?_congr_of_mem fun c hc =>
    Clause.resolve?_congr (h c.path (List.mem_map_of_mem hc)) _ mode

/-- What a placeholder stands for depends on the paths of its alternatives only: neither its
fallback nor its modifiers look at the context. -/
theorem outcome?_congr {p : Placeholder} (h : Value.AgreeOn p.paths context context')
    (text : List Char) (mode : Mode) :
    p.outcome? text context mode = p.outcome? text context' mode := by
  rw [outcome?, outcome?, resolve?_congr h mode]

end Placeholder

/-! ## A template -/

namespace Template

/-- The paths that the placeholder with this body names; a body that cannot be read names none. -/
def paths (body : List Char) : List String :=
  match Placeholder.parse body with
  | .ok p => p.paths
  | .error _ => []

/-- A body that can be read names the paths of its placeholder. -/
theorem paths_of_prepare {body : List Char} {p : Placeholder} (h : prepare options body = .ok p) :
    paths body = p.paths := by
  rw [paths, (prepare_eq_ok_iff.1 h).1]

/-- A placeholder that cannot be prepared is looked up in no context, and any other one at the paths
that its body names. -/
theorem fill_congr {body : List Char} (h : Value.AgreeOn (paths body) context context')
    (text : List Char) : fill context options text body = fill context' options text body := by
  unfold fill
  cases hp : prepare options body with
  | error e => rfl
  | ok p =>
    rw [paths_of_prepare hp] at h
    show Except.ok _ = Except.ok _
    rw [Placeholder.outcome?_congr h]

/-- What a template renders to, and how it fails, depends on the paths that its placeholders name
only. -/
theorem render_congr {s : List Char}
    (h : ∀ b ∈ (segments s).bodies, Value.AgreeOn (paths b) context context') :
    render context options s = render context' options s := by
  unfold render
  dsimp only
  split
  · next body hw =>
    have hbody : body ∈ (segments s).bodies := by
      rw [Segments.eq_of_whole? hw]
      exact List.mem_cons_self
    cases hp : prepare options body with
    | error e => rfl
    | ok p =>
      have hagree := h body hbody
      rw [paths_of_prepare hp] at hagree
      exact congrArg Except.ok (Placeholder.outcome?_congr hagree _ _)
  · rw [foldlM_congr_of_mem fun b hb text => fill_congr (h b hb) text]

end Template

/-! ## A tree -/

namespace Tree

/-- The paths that a tree names: those of its placeholders down to the depth limit. -/
def paths (options : Options) (node : Value) : List String :=
  (bodies options node).flatMap Template.paths

/-- The substitution depends on the paths that the texts on its levels name only.

**Proof sketch.** By induction on the levels: a text is rendered alike in both contexts, and the
items or members of a container are visited alike one after the other. -/
theorem substitute_congr {levels : Nat} {node : Value}
    (h : ∀ s ∈ texts levels node, ∀ b ∈ (Template.segments s.toList).bodies,
      Value.AgreeOn (Template.paths b) context context') :
    substitute context options levels node = substitute context' options levels node := by
  induction levels generalizing node with
  | zero => rfl
  | succ levels ih =>
    cases node with
    | str s => rw [substitute, substitute, Template.render_congr (h s List.mem_cons_self)]
    | arr items =>
      have hitem : ∀ v ∈ items, substitute context options levels v
          = substitute context' options levels v := fun v hv =>
        ih fun s hs => h s (List.mem_flatMap.2 ⟨v, hv, hs⟩)
      rw [substitute, substitute, mapM_congr_of_mem hitem]
    | obj members =>
      have hmember : ∀ m ∈ members, (do return (m.1, ← substitute context options levels m.2))
          = (do return (m.1, ← substitute context' options levels m.2) : Except RenderError _) := by
        intro m hm
        rw [ih fun s hs => h s (List.mem_flatMap.2 ⟨m, hm, hs⟩)]
      rw [substitute, substitute, mapM_congr_of_mem hmember]
    | null | bool | num => rfl

/-- **A tree reads only what it names.** In two contexts that agree on the paths that a tree names
down to the depth limit, it has the same result or the same failure.

**Proof sketch.** The substitution agrees, and the merge pass works on what the substitution leaves
and looks at no context. -/
theorem replace_congr {context context' : Value} {options : Options} {node : Value}
    (h : Value.AgreeOn (paths options node) context context') :
    replace context options node = replace context' options node := by
  have htexts : ∀ s ∈ texts (options.maxDepth + 1) node,
      ∀ b ∈ (Template.segments s.toList).bodies,
        Value.AgreeOn (Template.paths b) context context' := fun s hs b hb path hpath =>
    h path (List.mem_flatMap.2 ⟨b, List.mem_flatMap.2 ⟨s, hs, hb⟩, hpath⟩)
  cases node with
  | str s => rw [replace, replace, Template.render_congr (htexts s List.mem_cons_self)]
  | arr items => rw [replace, replace, substitute_congr htexts]
  | obj members => rw [replace, replace, substitute_congr htexts]
  | null | bool | num => rfl

/-- Two contexts hold different passwords, lists of different lengths and different values where
only a text below the depth limit looks; a path that is named leads nowhere in both. -/
theorem replace_congr_of_unread_values :
    let options : Options := { maxDepth := 2 }
    let extra : Value := .obj [("x", .bool true), ("$truto_merge", .obj [("y", .null)])]
    let context : Value := .obj [
      ("user", .obj [("password", .str "one"), ("name", .str "Ada")]),
      ("list", .arr [.num (.int 1), .str "[2]"]), ("extra", extra), ("secret", .str "s")]
    let context' : Value := .obj [("extra", extra),
      ("user", .obj [("name", .str "Ada"), ("age", .num (.int 36)), ("password", .null)]),
      ("list", .arr [.str "\x7b\x7bsecret\x7d\x7d", .null, .str "[2]"])]
    let node : Value := .obj [
      ("to", .str "<\x7b\x7buser.nick|user.name\x7d\x7d>"),
      ("last", .str "\x7b\x7blist.-1:json\x7d\x7d"),
      ("$truto_merge", .str "\x7b\x7bextra:json\x7d\x7d"),
      ("deep", .obj [("list", .arr [.str "\x7b\x7bsecret\x7d\x7d"])])]
    Value.AgreeOn (paths options node) context context' ∧ context ≠ context'
      ∧ replace context options node = replace context' options node
      ∧ replace context' options node = .ok (.obj [
        ("to", .str "<Ada>"), ("last", .arr [.num (.int 2)]), ("deep", .obj [("list", .arr [])]),
        ("x", .bool true), ("y", .null)]) := by
  intro options extra context context' node
  have hagree : Value.AgreeOn (paths options node) context context' := by decide +kernel
  exact ⟨hagree, by decide +kernel, replace_congr hagree, eq_ok_of_toOption (by decide +kernel)⟩

end Tree

end Stencil
