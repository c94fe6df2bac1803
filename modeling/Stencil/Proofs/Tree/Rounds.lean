import Stencil.Tree.Directives

/-!
# Rounds of directives

The members of an object are settled in rounds. A round takes away the directive and lays its
sources over the other members, which may bring in the next directive. A merge has no more nodes
than its parts, and the directive is a node that no source makes up for; so every round leaves fewer
nodes, and the rounds end.

## Main definitions

* `Stencil.Tree.Rounds` — the directives of an object in the order in which they are applied.

## Main results

* `Stencil.Tree.exists_rounds` — the rounds of every object end, with its settled members.
* `Stencil.Tree.Rounds.nodes_add_length_le` — each round takes at least one node away.
* `Stencil.Tree.nodes_applyMerges?_le` — the merge pass leaves no more nodes than there were.
* `Stencil.Tree.rounds_end_without_growth` — all of it together.
-/

set_option autoImplicit false

namespace Stencil.Tree

variable {options : Options} {members settled : Members} {directives : List Value}

/-! ## Rounds -/

/-- From these members, these directives are applied one after the other, and these members without
a directive are left. -/
inductive Rounds (options : Options) : Members → List Value → Members → Prop where
  /-- No directive is left. -/
  | done {members : Members} (h : Members.get? members options.mergeKey = none) :
      Rounds options members [] members
  /-- One more round in front. -/
  | next {members settled : Members} {directive : Value} {directives : List Value}
      (h : Members.get? members options.mergeKey = some directive)
      (rest : Rounds options (round options members directive) directives settled) :
      Rounds options members (directive :: directives) settled

/-- The rounds of every object end, and its settled members are what is left. -/
theorem exists_rounds (options : Options) (members : Members) :
    ∃ directives, Rounds options members directives (settle options members) := by
  fun_induction settle options members with
  | case1 members directive h _ ih =>
    obtain ⟨directives, hrounds⟩ := ih
    exact ⟨directive :: directives, .next h hrounds⟩
  | case2 members h => exact ⟨[], .done h⟩

/-- Where there is a directive, the rounds begin with it. -/
theorem Rounds.exists_eq_cons {directive : Value} (h : Rounds options members directives settled)
    (hdirective : Members.get? members options.mergeKey = some directive) :
    ∃ later, directives = directive :: later
      ∧ Rounds options (round options members directive) later settled := by
  cases h with
  | done hnone =>
    rw [hdirective] at hnone
    cases hnone
  | next hfirst hrest =>
    rw [hdirective, Option.some_inj] at hfirst
    subst hfirst
    exact ⟨_, rfl, hrest⟩

/-- Each round takes at least one node away. -/
theorem Rounds.nodes_add_length_le (h : Rounds options members directives settled) :
    Members.nodes settled + directives.length ≤ Members.nodes members := by
  induction h with
  | done _ => simp
  | next h _ ih =>
    have hround := nodes_round_lt h
    rw [List.length_cons]
    omega

/-- Settling leaves no more nodes than there were. -/
theorem nodes_settle_le (options : Options) (members : Members) :
    Members.nodes (settle options members) ≤ Members.nodes members := by
  obtain ⟨directives, hrounds⟩ := exists_rounds options members
  have hlength := hrounds.nodes_add_length_le
  omega

/-! ## The merge pass -/

/-- Items that are dropped or replaced by items with no more nodes have no more nodes together. -/
theorem nodesItems_filterMap_le {f : Value → Option Value}
    (hf : ∀ v w, f v = some w → w.nodes ≤ v.nodes) (items : List Value) :
    Value.nodesItems (items.filterMap f) ≤ Value.nodesItems items := by
  induction items with
  | nil => simp
  | cons v rest ih =>
    rw [Value.nodesItems]
    cases hv : f v with
    | none =>
      rw [List.filterMap_cons_none hv]
      omega
    | some w =>
      have hw := hf v w hv
      rw [List.filterMap_cons_some hv, Value.nodesItems]
      omega

/-- Members whose values are dropped or replaced by values with no more nodes have no more nodes
together. -/
theorem nodes_filterMap_value_le {f : Value → Option Value}
    (hf : ∀ v w, f v = some w → w.nodes ≤ v.nodes) (members : Members) :
    Members.nodes (members.filterMap fun m => (f m.2).map fun v => (m.1, v))
      ≤ Members.nodes members := by
  induction members with
  | nil => simp
  | cons m rest ih =>
    rw [Members.nodes_cons, List.filterMap_cons]
    cases hm : f m.2 with
    | none =>
      rw [Option.map_none]
      dsimp only
      omega
    | some w =>
      have hw := hf m.2 w hm
      rw [Option.map_some]
      dsimp only
      rw [Members.nodes_cons]
      dsimp only
      omega

/-- The merge pass leaves no more nodes than there were.

**Proof sketch.** By induction on the levels. The members of an object are settled first, which
leaves no more nodes; and what becomes of each item or member has no more nodes than it had. -/
theorem nodes_applyMerges?_le {levels : Nat} {v w : Value}
    (h : applyMerges? options levels v = some w) : w.nodes ≤ v.nodes := by
  induction levels generalizing v w with
  | zero => cases h
  | succ levels ih =>
    have hstep : ∀ v w, applyMerges? options levels v = some w → w.nodes ≤ v.nodes :=
      fun _ _ => ih
    cases v with
    | arr items =>
      have hitems := nodesItems_filterMap_le hstep items
      rw [applyMerges?, Option.some_inj] at h
      rw [← h]
      exact Nat.add_le_add_left hitems 1
    | obj members =>
      have hsettle := nodes_settle_le options members
      have hvalues := nodes_filterMap_value_le hstep (settle options members)
      rw [applyMerges?, Option.some_inj] at h
      rw [← h]
      exact Nat.add_le_add_left (Nat.le_trans hvalues hsettle) 1
    | null | bool | num | str =>
      cases h
      exact Nat.le_refl _

/-- **The rounds end, and the merge pass cannot make more of what it is given.** Each round leaves
an object with fewer nodes. So the rounds of every object end, and there are fewer of them than the
object has nodes. Whatever becomes of a value in the merge pass has no more nodes than the value.

**Proof sketch.** A merge has no more nodes than its parts. The directive of a round is among the
nodes of the object, and its sources are among those of the directive. -/
theorem rounds_end_without_growth (options : Options) :
    (∀ members directive, Members.get? members options.mergeKey = some directive →
      (Value.obj (round options members directive)).nodes < (Value.obj members).nodes)
    ∧ (∀ members, ∃ directives, Rounds options members directives (settle options members)
      ∧ directives.length < (Value.obj members).nodes)
    ∧ ∀ levels v w, applyMerges? options levels v = some w → w.nodes ≤ v.nodes := by
  refine ⟨fun members directive h => ?_, fun members => ?_, fun levels v w => ?_⟩
  · exact Nat.add_lt_add_left (nodes_round_lt h) 1
  · obtain ⟨directives, hrounds⟩ := exists_rounds options members
    have hlength := hrounds.nodes_add_length_le
    have hmembers : (Value.obj members).nodes = 1 + Members.nodes members := rfl
    refine ⟨directives, hrounds, ?_⟩
    omega
  · exact nodes_applyMerges?_le

/-- Two sources bring in directives that are joined into one with three sources, of which the last
brings in another. -/
theorem rounds_end_without_growth_of_joined_directives :
    let options : Options := { mergeKey := "m" }
    let directive : Value := .arr [
      .obj [("m", .arr [.obj [("b", .arr [.null])], .null])],
      .obj [("b", .bool true), ("m", .arr [.obj [("a", .null), ("m", .obj [("c", .arr [])])]])]]
    let members : Members := [("a", .arr [.null, .null]), ("m", directive)]
    let w : Value := .obj [("a", .null), ("b", .arr [.null]), ("c", .arr [])]
    Members.get? members options.mergeKey = some directive
      ∧ (Value.obj (round options members directive)).nodes < (Value.obj members).nodes
      ∧ applyMerges? options (options.maxDepth + 1) (.obj members) = some w
      ∧ w.nodes ≤ (Value.obj members).nodes := by
  intro options directive members w
  obtain ⟨hround, -, hpass⟩ := rounds_end_without_growth options
  have hdirective : Members.get? members options.mergeKey = some directive := by decide +kernel
  have hw : applyMerges? options (options.maxDepth + 1) (.obj members) = some w := by
    decide +kernel
  exact ⟨hdirective, hround members directive hdirective, hw, hpass _ _ _ hw⟩

end Stencil.Tree
