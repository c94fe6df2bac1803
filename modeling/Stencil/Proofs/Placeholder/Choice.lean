import Stencil.Proofs.Placeholder.Kept
import Stencil.Proofs.Placeholder.Sections
import Stencil.Proofs.Template.Embedded

/-!
# Ordered choice

The alternatives of a placeholder are an ordered choice: the first one that holds a value in the
context is chosen, and its own tag casts the value. The modifiers are not part of the choice. On
whichever alternative one is written, it is one of the whole placeholder: of two lists of
alternatives with a bar between them, those of one list count for the other one too.

## Main definitions

* `Stencil.Clause.Holds` — an alternative holds a value in a context.
* `Stencil.Chosen` — the first alternative on a list that holds a value.
* `Stencil.Carries` — some alternative on a list has a tag.
* `Stencil.StandsIn` — the value that stands in for alternatives of which none is chosen.
* `Stencil.StandsFor` — the value that alternatives with a fallback stand for.

## Main results

* `Stencil.Placeholder.resolve?_eq_some_iff`, `Stencil.Placeholder.outcome?_eq_iff` — what resolves,
  and what a placeholder stands for.
* `Stencil.Placeholder.sections_bar` — the sections of two lists of alternatives with a bar between
  them.
* `Stencil.Placeholder.parse_bar` — such a body is one ordered choice.
-/

set_option autoImplicit false

namespace Stencil

variable {context : Value} {ignoreEmpty : Prop} {mode : Mode} {v r : Value} {c : Clause}
  {clauses : List Clause}

/-! ## The choice -/

/-- An alternative holds a value in a context: its path leads there, and the value is not an empty
text where empty texts are ignored. A null is held like any other value. -/
structure Clause.Holds (context : Value) (ignoreEmpty : Prop) (c : Clause) (v : Value) : Prop where
  get?_eq : context.get? c.path = some v
  not_ignored : ¬ (ignoreEmpty ∧ v = .str "")

/-- The alternative is the first one on a list that holds a value in a context, and this is the
value. -/
def Chosen (context : Value) (ignoreEmpty : Prop) (clauses : List Clause) (c : Clause) (v : Value) :
    Prop :=
  ∃ before after, clauses = before ++ c :: after
    ∧ (∀ d ∈ before, ∀ w, ¬ d.Holds context ignoreEmpty w) ∧ c.Holds context ignoreEmpty v

/-- Some alternative on a list has the tag. -/
def Carries (clauses : List Clause) (tag : Tag) : Prop := ∃ c ∈ clauses, tag ∈ c.tags

/-- A tag that one of two lists has, both of them together have. -/
theorem carries_append_iff {clauses' : List Clause} {tag : Tag} :
    Carries (clauses ++ clauses') tag ↔ Carries clauses tag ∨ Carries clauses' tag := by
  simp only [Carries, List.mem_append, or_and_right, exists_or]

/-- What stands in for alternatives of which none is chosen, where they are written as `text`: the
fallback; else undefined or null, as far as some alternative allows it; else the written text. -/
inductive StandsIn (mode : Mode) (clauses : List Clause) (fallback : Option Fallback)
    (text : List Char) : Option Value → Prop where
  | fallback {f : Fallback} (hf : fallback = some f) :
    StandsIn mode clauses fallback text (some (f.value mode))
  | undefined (hf : fallback = none) (hundefined : Carries clauses .undefined) :
    StandsIn mode clauses fallback text none
  | null (hf : fallback = none) (hundefined : ¬ Carries clauses .undefined)
    (hnull : Carries clauses .null) : StandsIn mode clauses fallback text (some .null)
  | kept (hf : fallback = none) (hundefined : ¬ Carries clauses .undefined)
    (hnull : ¬ Carries clauses .null) :
    StandsIn mode clauses fallback text (some (.str (String.ofList text)))

/-- What alternatives with a fallback stand for: the chosen value, cast by the first tag of its own
alternative, or else what stands in for it. -/
inductive StandsFor (context : Value) (mode : Mode) (clauses : List Clause)
    (fallback : Option Fallback) (text : List Char) : Option Value → Prop where
  | chosen {c : Clause} {v : Value}
    (h : Chosen context (Carries clauses .ignoreEmptyStr) clauses c v) :
    StandsFor context mode clauses fallback text (some (v.cast mode c.castTag))
  | standsIn {o : Option Value}
    (hnone : ∀ c v, ¬ Chosen context (Carries clauses .ignoreEmptyStr) clauses c v)
    (h : StandsIn mode clauses fallback text o) : StandsFor context mode clauses fallback text o

/-- An alternative resolves to the value that it holds, cast by its first tag. -/
theorem Clause.resolve?_eq_some_iff {ignore : Bool} : c.resolve? context ignore mode = some r
    ↔ ∃ v, c.Holds context (ignore = true) v ∧ r = v.cast mode c.castTag := by
  unfold Clause.resolve?
  constructor
  · intro h
    split at h
    · cases h
    · next v hv =>
      split at h
      · cases h
      · next hcounts =>
        cases h
        exact ⟨v, ⟨hv, hcounts⟩, rfl⟩
  · rintro ⟨v, ⟨hv, hcounts⟩, rfl⟩
    rw [hv]
    exact if_neg hcounts

/-- An alternative does not resolve exactly when it holds nothing. -/
theorem Clause.resolve?_eq_none_iff_not_holds {ignore : Bool} :
    c.resolve? context ignore mode = none ↔ ∀ v, ¬ c.Holds context (ignore = true) v := by
  rw [Clause.resolve?_eq_none_iff]
  refine forall_congr' fun v => ⟨fun h hholds => ?_, fun h hv => ?_⟩
  · exact hholds.not_ignored (h hholds.get?_eq)
  · by_contra hcounts
    exact h ⟨hv, hcounts⟩

namespace Placeholder

variable {p q : Placeholder} {text : List Char}

/-- A placeholder has a tag when one of its alternatives has. -/
theorem hasTag_iff {tag : Tag} : p.hasTag tag = true ↔ Carries p.clauses tag := by
  simp [hasTag, Carries]

/-- A placeholder resolves to the chosen value, cast by the first tag of its own alternative. -/
theorem resolve?_eq_some_iff : p.resolve? context mode = some r
    ↔ ∃ c v, Chosen context (Carries p.clauses .ignoreEmptyStr) p.clauses c v
      ∧ r = v.cast mode c.castTag := by
  have hignore : (p.ignoresEmptyStr = true) = Carries p.clauses .ignoreEmptyStr :=
    propext hasTag_iff
  rw [resolve?, List.findSome?_eq_some_iff]
  simp only [Clause.resolve?_eq_some_iff, Clause.resolve?_eq_none_iff_not_holds, hignore]
  constructor
  · rintro ⟨before, c, after, hsplit, ⟨v, hv, hr⟩, hbefore⟩
    exact ⟨c, v, ⟨before, after, hsplit, hbefore, hv⟩, hr⟩
  · rintro ⟨c, v, ⟨before, after, hsplit, hbefore, hv⟩, hr⟩
    exact ⟨before, c, after, hsplit, ⟨v, hv, hr⟩, hbefore⟩

/-- A placeholder does not resolve exactly when no alternative is chosen. -/
theorem resolve?_eq_none_iff_not_chosen : p.resolve? context mode = none
    ↔ ∀ c v, ¬ Chosen context (Carries p.clauses .ignoreEmptyStr) p.clauses c v := by
  rw [Option.eq_none_iff_forall_ne_some]
  constructor
  · intro h c v hchosen
    exact h _ (resolve?_eq_some_iff.2 ⟨c, v, hchosen, rfl⟩)
  · intro h r hr
    obtain ⟨c, v, hchosen, -⟩ := resolve?_eq_some_iff.1 hr
    exact h c v hchosen

/-- A placeholder that does not resolve stands for what stands in for its alternatives.

**Proof sketch.** Both sides follow the same order, one case after the other. -/
theorem outcome?_eq_iff_standsIn (hr : p.resolve? context mode = none) {o : Option Value} :
    p.outcome? text context mode = o ↔ StandsIn mode p.clauses p.fallback text o := by
  rw [outcome?, hr]
  constructor
  · rintro rfl
    cases hf : p.fallback with
    | some f => exact .fallback rfl
    | none =>
      by_cases hundefined : p.allowsUndefined = true
      · simp only [hundefined, if_true]
        exact .undefined rfl (hasTag_iff.1 hundefined)
      · by_cases hnull : p.allowsNull = true
        · simp only [hundefined, hnull, if_true]
          exact .null rfl (mt hasTag_iff.2 hundefined) (hasTag_iff.1 hnull)
        · simp only [hundefined, hnull]
          exact .kept rfl (mt hasTag_iff.2 hundefined) (mt hasTag_iff.2 hnull)
  · intro h
    cases h with
    | fallback hf => rw [hf]
    | undefined hf hundefined =>
      rw [hf]
      exact if_pos (hasTag_iff.2 hundefined)
    | null hf hundefined hnull =>
      rw [hf]
      exact (if_neg (mt hasTag_iff.1 hundefined)).trans (if_pos (hasTag_iff.2 hnull))
    | kept hf hundefined hnull =>
      rw [hf]
      exact (if_neg (mt hasTag_iff.1 hundefined)).trans (if_neg (mt hasTag_iff.1 hnull))

/-- A placeholder stands for what its alternatives with its fallback stand for. -/
theorem outcome?_eq_iff {o : Option Value} : p.outcome? text context mode = o
    ↔ StandsFor context mode p.clauses p.fallback text o := by
  constructor
  · intro h
    cases hr : p.resolve? context mode with
    | some r =>
      obtain ⟨c, v, hchosen, rfl⟩ := resolve?_eq_some_iff.1 hr
      rw [outcome?, hr] at h
      subst h
      exact .chosen hchosen
    | none =>
      have hnone := resolve?_eq_none_iff_not_chosen.1 hr
      exact .standsIn hnone ((outcome?_eq_iff_standsIn hr).1 h)
  · intro h
    cases h with
    | chosen hchosen => rw [outcome?, resolve?_eq_some_iff.2 ⟨_, _, hchosen, rfl⟩]
    | standsIn hnone h =>
      exact (outcome?_eq_iff_standsIn (resolve?_eq_none_iff_not_chosen.2 hnone)).2 h

/-! ## Two lists of alternatives -/

/-- A body with two lists of alternatives, a bar between them, and perhaps a fallback. -/
def bar (a b : List Char) (fallback : Option (List Char)) : List Char :=
  a ++ '|' :: (b ++ fallback.elim [] (mark ++ ·))

/-- The sections of such a body are its alternatives and its fallback. -/
theorem sections_bar {a b : List Char} (ha : ¬ mark <:+: a) (hb : ¬ mark <:+: b)
    (fallback : Option (List Char)) : Sections (bar a b fallback) (a ++ '|' :: b) fallback := by
  have hbar : ¬ mark <:+: a ++ ['|'] :=
    not_mark_infix_append ha (not_mark_infix_of_not_mem (by decide)) fun _ => by decide
  have hjoined : ¬ mark <:+: a ++ '|' :: b := by
    rw [List.append_cons]
    refine not_mark_infix_append hbar hb fun hlast => ?_
    rw [List.getLast?_concat] at hlast
    cases hlast
  cases fallback with
  | none =>
    rw [bar, Option.elim_none, List.append_nil]
    exact .alone hjoined
  | some text =>
    refine .marked ?_ hjoined
    rw [bar, Option.elim_some, List.append_assoc, List.cons_append]

/-- Such a body is read as the alternatives of both lists, in their order. -/
theorem parse_bar_eq_ok {a b : List Char} (ha : ¬ mark <:+: a) (hb : ¬ mark <:+: b)
    (hp : parse a = .ok p) (hq : parse b = .ok q) {fallback : Option (List Char)}
    {f : Option Fallback} (hf : fallback.mapM Fallback.parse = .ok f) :
    parse (bar a b fallback) = .ok ⟨p.clauses ++ q.clauses, f⟩ := by
  rw [(sections_bar ha hb fallback).parse_eq_ok_iff]
  refine ⟨hf, ?_⟩
  rw [List.splitOn_append_cons_self, List.mapM_append,
    ((Sections.alone ha).parse_eq_ok_iff.1 hp).2, ((Sections.alone hb).parse_eq_ok_iff.1 hq).2]
  rfl

open Template (IsBody wrap render)

/-- **Two lists of alternatives with a bar between them are one ordered choice.** Both lists can be
read and hold no mark. Then the body with the bar has the alternatives of both, in their order. It
resolves to the first of them that holds a value, cast by its own first tag, where empty texts are
ignored if an alternative of either list says so; a null ends the search. With or without a fallback
behind them, the placeholder stands for the chosen value, or else for the fallback, or else for what
the modifiers of both lists allow.

**Proof sketch.** The bar is one of those at which the alternatives are cut, and no mark lies across
it. What resolves and what a placeholder stands for is known for any list of alternatives. -/
theorem parse_bar {a b : List Char} (ha : ¬ mark <:+: a) (hb : ¬ mark <:+: b)
    (hp : parse a = .ok p) (hq : parse b = .ok q) :
    (∃ r, parse (a ++ '|' :: b) = .ok r ∧ r.clauses = p.clauses ++ q.clauses
      ∧ ∀ context mode,
        (∀ v, r.resolve? context mode = some v ↔ ∃ c w,
          Chosen context (Carries p.clauses .ignoreEmptyStr ∨ Carries q.clauses .ignoreEmptyStr)
            (p.clauses ++ q.clauses) c w ∧ v = w.cast mode c.castTag)
        ∧ ∀ c,
          Chosen context (Carries p.clauses .ignoreEmptyStr ∨ Carries q.clauses .ignoreEmptyStr)
            (p.clauses ++ q.clauses) c .null → r.resolve? context mode = some .null)
    ∧ ∀ fallback f, fallback.mapM Fallback.parse = .ok f →
      ∃ r, parse (bar a b fallback) = .ok r
        ∧ (∀ context mode o, r.outcome? (wrap (bar a b fallback)) context mode = o ↔
          StandsFor context mode (p.clauses ++ q.clauses) f (wrap (bar a b fallback)) o)
        ∧ ∀ context options, IsBody (bar a b fallback) →
          (∀ t ∈ r.tags, options.allows t = true) →
          ∃ o, render context options (wrap (bar a b fallback)) = .ok o
            ∧ StandsFor context .whole (p.clauses ++ q.clauses) f (wrap (bar a b fallback)) o := by
  constructor
  · have hread : parse (a ++ '|' :: b) = .ok ⟨p.clauses ++ q.clauses, none⟩ := by
      have hnone : (none : Option (List Char)).mapM Fallback.parse = .ok none := rfl
      have hbar := parse_bar_eq_ok ha hb hp hq hnone
      rwa [bar, Option.elim_none, List.append_nil] at hbar
    refine ⟨_, hread, rfl, fun context mode => ?_⟩
    have hignore : Carries (p.clauses ++ q.clauses) .ignoreEmptyStr
        = (Carries p.clauses .ignoreEmptyStr ∨ Carries q.clauses .ignoreEmptyStr) :=
      propext carries_append_iff
    rw [← hignore]
    exact ⟨fun v => resolve?_eq_some_iff,
      fun c hnull => resolve?_eq_some_iff.2 ⟨c, .null, hnull, rfl⟩⟩
  · intro fallback f hf
    have hread := parse_bar_eq_ok ha hb hp hq hf
    refine ⟨_, hread, fun context mode o => outcome?_eq_iff, ?_⟩
    intro context options hbody hallowed
    have hrender : render context options (wrap (bar a b fallback))
        = .ok (outcome? ⟨p.clauses ++ q.clauses, f⟩ (wrap (bar a b fallback)) context .whole) := by
      rw [Template.render_wrap hbody, Template.prepare_eq_ok_iff.2 ⟨hread, hallowed⟩]
      rfl
    exact ⟨_, hrender, (outcome?_eq_iff (p := ⟨p.clauses ++ q.clauses, f⟩)).1 rfl⟩

/-- Empty texts are ignored in front of the alternative that says so, a found null is chosen, and
what stands in when no alternative holds a value is decided by the last one. -/
theorem parse_bar_of_shared_modifiers :
    let a := "x:int|n".toList
    let b := "y:num:ignore-empty-str:undefined".toList
    let front : List Clause := [⟨"x", [.int]⟩, ⟨"n", []⟩]
    let last : Clause := ⟨"y", [.num, .ignoreEmptyStr, .undefined]⟩
    let context : Value := .obj [("x", .str "")]
    let fallback := " d".toList
    ¬ mark <:+: a ∧ ¬ mark <:+: b
      ∧ parse a = .ok ⟨front, none⟩ ∧ parse b = .ok ⟨[last], none⟩
      ∧ (∃ r, parse (a ++ '|' :: b) = .ok r ∧ r.clauses = front ++ [last]
        ∧ r.resolve? (.obj [("x", .str ""), ("y", .str "5")]) .whole = some (.num (.int 5))
        ∧ r.resolve? (.obj [("n", .null), ("y", .str "5")]) .embedded = some .null)
      ∧ render context {} (wrap (bar a b none)) = .ok none
      ∧ StandsFor context .whole (front ++ [last]) none (wrap (bar a b none)) none
      ∧ render context {} (wrap (bar a b (some fallback))) = .ok (some (.str " d"))
      ∧ StandsFor context .whole (front ++ [last]) (some ⟨" d", none⟩)
        (wrap (bar a b (some fallback))) (some (.str " d")) := by
  intro a b front last context fallback
  have ha : ¬ mark <:+: a := by decide +kernel
  have hb : ¬ mark <:+: b := by decide +kernel
  have hp : parse a = .ok ⟨front, none⟩ := eq_ok_of_toOption (by decide +kernel)
  have hq : parse b = .ok ⟨[last], none⟩ := eq_ok_of_toOption (by decide +kernel)
  obtain ⟨⟨r, hr, hclauses, hresolve⟩, hbar⟩ := parse_bar ha hb hp hq
  have hignore : Carries front .ignoreEmptyStr ∨ Carries [last] .ignoreEmptyStr :=
    .inr ⟨last, List.mem_singleton_self last, by decide⟩
  have hlast : r.resolve? (.obj [("x", .str ""), ("y", .str "5")]) .whole
      = some (.num (.int 5)) := by
    refine ((hresolve _ .whole).1 _).2 ⟨last, .str "5", ⟨front, [], rfl, ?_, ?_⟩, ?_⟩
    · simp only [front, List.forall_mem_cons, List.not_mem_nil, false_implies, implies_true,
        and_true]
      constructor
      · intro w hx
        have hw : some (.str "") = some w := Eq.trans (by decide +kernel) hx.get?_eq
        exact hx.not_ignored ⟨hignore, (Option.some.inj hw).symm⟩
      · intro w hn
        have hw : none = some w := Eq.trans (by decide +kernel) hn.get?_eq
        cases hw
    · exact ⟨by decide +kernel, fun h => absurd h.2 (by decide)⟩
    · decide +kernel
  have hnull : r.resolve? (.obj [("n", .null), ("y", .str "5")]) .embedded = some .null := by
    refine (hresolve _ .embedded).2 ⟨"n", []⟩ ⟨[⟨"x", [.int]⟩], [last], rfl, ?_, ?_⟩
    · simp only [List.forall_mem_cons, List.not_mem_nil, false_implies, implies_true, and_true]
      intro w hx
      have hw : none = some w := Eq.trans (by decide +kernel) hx.get?_eq
      cases hw
    · exact ⟨by decide +kernel, fun h => absurd h.2 (by decide)⟩
  have hundefined : render context {} (wrap (bar a b none)) = .ok none :=
    eq_ok_of_toOption (by decide +kernel)
  have hfallback : render context {} (wrap (bar a b (some fallback)))
      = .ok (some (.str " d")) := eq_ok_of_toOption (by decide +kernel)
  refine ⟨ha, hb, hp, hq, ⟨r, hr, hclauses, hlast, hnull⟩, hundefined, ?_, hfallback, ?_⟩
  · obtain ⟨s, -, -, hs⟩ := hbar none none rfl
    have hbody : IsBody (bar a b none) :=
      ⟨by decide +kernel, List.all_eq_true.1 (by decide +kernel)⟩
    obtain ⟨o, ho, hstands⟩ := hs context {} hbody fun _ _ => rfl
    obtain rfl := Except.ok.inj (ho.symm.trans hundefined)
    exact hstands
  · obtain ⟨s, -, -, hs⟩ := hbar (some fallback) (some ⟨" d", none⟩)
      (eq_ok_of_toOption (by decide +kernel))
    have hbody : IsBody (bar a b (some fallback)) :=
      ⟨by decide +kernel, List.all_eq_true.1 (by decide +kernel)⟩
    obtain ⟨o, ho, hstands⟩ := hs context {} hbody fun _ _ => rfl
    obtain rfl := Except.ok.inj (ho.symm.trans hfallback)
    exact hstands

end Placeholder

end Stencil
