import Mathlib.Data.List.Forall2
import Stencil.Placeholder.Parse

/-!
# Computations that may fail

The failure of a computation, set apart from what it computes. A list is worked through from left
to right and the first failure ends the work, so the failure of the whole is the first one among
the failures of its members.

## Main definitions

* `Stencil.failure?` — the failure of a computation; none when it succeeds.

## Main results

* `Stencil.failure?_mapM`, `Stencil.failure?_foldlM` — the failure of the work on a list.
* `Stencil.exists_mem_of_mapM_eq_ok`, `Stencil.forall₂_of_mapM_eq_ok`,
  `Stencil.mapM_eq_ok_of_forall₂`, `Stencil.mapM_eq_ok_map`, `Stencil.eq_map_of_mapM_eq_ok` — its
  results.
* `Stencil.mapM_congr_of_mem`, `Stencil.foldlM_congr_of_mem` — only what is computed on the members
  counts.
* `Stencil.findSome?_flatMap`, `Stencil.findSome?_congr_of_mem` — the first one in a list of lists,
  and for functions that agree.
-/

set_option autoImplicit false

namespace Stencil

variable {α β ε : Type}

/-- The failure of a computation; none when it succeeds. -/
def failure? : Except ε α → Option ε
  | .ok _ => none
  | .error e => some e

@[simp] theorem failure?_ok (a : α) : failure? (.ok a : Except ε α) = none := rfl

@[simp] theorem failure?_error (e : ε) : failure? (.error e : Except ε α) = some e := rfl

/-- A computation fails in one way only. -/
theorem failure?_eq_some_iff {x : Except ε α} {e : ε} : failure? x = some e ↔ x = .error e := by
  cases x <;> simp

/-- A computation without failure has a result. -/
theorem failure?_eq_none_iff {x : Except ε α} : failure? x = none ↔ ∃ a, x = .ok a := by
  cases x <;> simp

/-- The result of a computation that has one. -/
theorem eq_ok_of_toOption {x : Except ε α} {a : α} (h : x.toOption = some a) : x = .ok a := by
  cases x <;> simp_all [Except.toOption]

instance instDecidableForallOk {x : Except ε α} {Q : α → Prop} [DecidablePred Q] :
    Decidable (∀ a, x = .ok a → Q a) :=
  match x with
  | .ok a => decidable_of_iff (Q a) (by simp)
  | .error _ => isTrue nofun

/-- A computation goes on with the result of its first part. -/
theorem ok_bind (a : α) (f : α → Except ε β) : (.ok a : Except ε α) >>= f = f a := rfl

/-- A failure of the first part is that of the whole. -/
theorem error_bind (e : ε) (f : α → Except ε β) : (.error e : Except ε α) >>= f = .error e := rfl

/-- A sequence succeeds with a result exactly when both of its steps do. -/
theorem bind_eq_ok_iff {x : Except ε α} {f : α → Except ε β} {b : β} :
    x >>= f = .ok b ↔ ∃ a, x = .ok a ∧ f a = .ok b := by
  cases x <;> simp [bind, Except.bind]

/-- A last step that cannot fail adds no failure. -/
theorem failure?_bind_pure (x : Except ε α) (f : α → β) :
    failure? (x >>= fun a => pure (f a)) = failure? x := by
  cases x <;> rfl

/-- A sequence whose second step fails in the same way whatever the first one yields fails as the
first step, or else as the second. -/
theorem failure?_bind_of_forall {x : Except ε α} {f : α → Except ε β} {e? : Option ε}
    (hf : ∀ a, failure? (f a) = e?) : failure? (x >>= f) = (failure? x).or e? := by
  cases x with
  | error e => rfl
  | ok a => exact hf a

/-- The first one in a list of lists is the first one in the first list that has one. -/
theorem findSome?_flatMap (g : β → Option ε) (f : α → List β) (l : List α) :
    (l.flatMap f).findSome? g = l.findSome? fun a => (f a).findSome? g := by
  induction l with
  | nil => rfl
  | cons a l ih =>
    rw [List.flatMap_cons, List.findSome?_append, ih, List.findSome?_cons]
    cases (f a).findSome? g <;> rfl

/-- The first one is the same for functions that agree on the members of a list. -/
theorem findSome?_congr_of_mem {f g : α → Option β} {l : List α} (h : ∀ a ∈ l, f a = g a) :
    l.findSome? f = l.findSome? g := by
  rw [← List.head?_filterMap, ← List.head?_filterMap, List.filterMap_congr h]

/-- Computing on every member of a list fails as the first member that fails. -/
theorem failure?_mapM (f : α → Except ε β) (l : List α) :
    failure? (l.mapM f) = l.findSome? fun a => failure? (f a) := by
  induction l with
  | nil => rfl
  | cons a l ih =>
    rw [List.mapM_cons, List.findSome?_cons]
    cases hfa : f a with
    | error e => rfl
    | ok b =>
      rw [failure?_ok, ← ih]
      exact failure?_bind_pure (l.mapM f) (b :: ·)

/-- What computing on a list yields comes from its members. -/
theorem exists_mem_of_mapM_eq_ok {f : α → Except ε β} {l : List α} {r : List β}
    (h : l.mapM f = .ok r) : ∀ b ∈ r, ∃ a ∈ l, f a = .ok b := by
  induction l generalizing r with
  | nil =>
    cases h
    exact fun b hb => absurd hb List.not_mem_nil
  | cons a l ih =>
    rw [List.mapM_cons, bind_eq_ok_iff] at h
    obtain ⟨b, hb, h⟩ := h
    obtain ⟨rest, hrest, h⟩ := bind_eq_ok_iff.1 h
    cases h
    rw [List.forall_mem_cons]
    refine ⟨⟨a, List.mem_cons_self, hb⟩, fun c hc => ?_⟩
    obtain ⟨d, hd, hdc⟩ := ih hrest c hc
    exact ⟨d, List.mem_cons_of_mem a hd, hdc⟩

/-- What computing on a list yields is what computing on its members yields, one for each and in
their order. -/
theorem forall₂_of_mapM_eq_ok {f : α → Except ε β} {l : List α} {r : List β}
    (h : l.mapM f = .ok r) : List.Forall₂ (fun a b => f a = .ok b) l r := by
  induction l generalizing r with
  | nil =>
    cases h
    exact .nil
  | cons a l ih =>
    rw [List.mapM_cons, bind_eq_ok_iff] at h
    obtain ⟨b, hb, h⟩ := h
    obtain ⟨rest, hrest, h⟩ := bind_eq_ok_iff.1 h
    cases h
    exact .cons hb (ih hrest)

/-- Computing on a list succeeds when it does on every member, with the results in their order. -/
theorem mapM_eq_ok_of_forall₂ {f : α → Except ε β} {l : List α} {r : List β}
    (h : List.Forall₂ (fun a b => f a = .ok b) l r) : l.mapM f = .ok r := by
  induction h with
  | nil => rfl
  | cons hab _ ih =>
    rw [List.mapM_cons, hab, ih]
    rfl

/-- Computing on a list succeeds when it does on every member. -/
theorem mapM_eq_ok_map {f : α → Except ε β} {g : α → β} {l : List α}
    (h : ∀ a ∈ l, f a = .ok (g a)) : l.mapM f = .ok (l.map g) := by
  induction l with
  | nil => rfl
  | cons a l ih =>
    rw [List.forall_mem_cons] at h
    rw [List.mapM_cons, h.1, ih h.2]
    rfl

/-- What computing on a list yields is known when it is known what each member yields. -/
theorem eq_map_of_mapM_eq_ok {f : α → Except ε β} {g : α → β} {l : List α} {r : List β}
    (h : l.mapM f = .ok r) (hg : ∀ a ∈ l, ∀ b, f a = .ok b → b = g a) : r = l.map g := by
  induction l generalizing r with
  | nil =>
    cases h
    rfl
  | cons a l ih =>
    rw [List.mapM_cons, bind_eq_ok_iff] at h
    obtain ⟨b, hb, h⟩ := h
    obtain ⟨rest, hrest, h⟩ := bind_eq_ok_iff.1 h
    cases h
    rw [List.forall_mem_cons] at hg
    rw [List.map_cons, hg.1 b hb, ih hrest hg.2]

/-- Computations that agree on the members of a list agree on the list. -/
theorem mapM_congr_of_mem {f g : α → Except ε β} {l : List α} (h : ∀ a ∈ l, f a = g a) :
    l.mapM f = l.mapM g := by
  induction l with
  | nil => rfl
  | cons a l ih =>
    rw [List.forall_mem_cons] at h
    rw [List.mapM_cons, List.mapM_cons, h.1, ih h.2]

/-- Folds whose steps agree on the members of a list agree on the list. -/
theorem foldlM_congr_of_mem {f g : β → α → Except ε β} {l : List α}
    (h : ∀ a ∈ l, ∀ b, f b a = g b a) (b : β) : l.foldlM f b = l.foldlM g b := by
  induction l generalizing b with
  | nil => rfl
  | cons a l ih =>
    rw [List.forall_mem_cons] at h
    rw [List.foldlM_cons, List.foldlM_cons, h.1 b, funext (ih h.2)]

/-- A fold fails as the first member that fails, when failing does not depend on what has been
folded so far. -/
theorem failure?_foldlM {f : β → α → Except ε β} {g : α → Option ε}
    (hf : ∀ b a, failure? (f b a) = g a) (l : List α) (b : β) :
    failure? (l.foldlM f b) = l.findSome? g := by
  induction l generalizing b with
  | nil => rfl
  | cons a l ih =>
    rw [List.foldlM_cons, List.findSome?_cons, ← hf b a]
    cases f b a with
    | error e => rfl
    | ok b' => exact ih b'

end Stencil
