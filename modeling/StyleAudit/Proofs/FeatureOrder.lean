import StyleAudit.Proofs.Occurrences

/-!
# Features start where components start

Every feature starts where a component does: a function or a keyword where it
stands itself, a pseudo-class at its first colon, a media feature at the
identifier that names it. The resolvers go through the components from left to
right and from the outside in, and never come back to one. So the places where
the features of a node start are a sublist of the places where its components
start, each of these being counted once.

Everything below is such a sublist. It says both that the order is kept and that
no place is used twice, and it composes: a resolver that goes through a list
needs no more than what it does with one component.
-/

namespace StyleAudit

open scoped List

namespace Component

/-- The components inside a component. -/
def inner : Component → List Component
  | token _ => []
  | function _ _ values _ => values
  | block _ _ values _ => values

/-- Where a component and all that is in it start, in source order. -/
def starts (c : Component) : List Position := c.parts.map start

/-- Where some components and all that is in them start, in source order. -/
def startsIn (cs : List Component) : List Position := (partsAll cs).map start

theorem starts_eq (c : Component) : c.starts = c.start :: startsIn c.inner := by
  cases c <;> rw [starts, parts, inner, startsIn] <;> rfl

@[simp] theorem startsIn_cons (c : Component) (rest : List Component) :
    startsIn (c :: rest) = c.starts ++ startsIn rest := by
  rw [startsIn, partsAll, List.map_append, starts, startsIn]

theorem startsIn_sublist {cs ds : List Component} (h : cs <+ ds) :
    startsIn cs <+ startsIn ds := by
  induction h with
  | slnil => exact .slnil
  | cons c h ih =>
      rw [startsIn_cons]
      exact ih.trans (List.sublist_append_right _ _)
  | cons_cons c h ih =>
      rw [startsIn_cons, startsIn_cons]
      exact ih.append_left _

theorem start_mem_startsIn {c : Component} {cs : List Component} (h : c ∈ cs) :
    c.start ∈ startsIn cs := by
  have hsub := startsIn_sublist (List.singleton_sublist.2 h)
  rw [startsIn_cons, starts_eq] at hsub
  exact hsub.subset List.mem_cons_self

theorem startsIn_inner_sublist (c : Component) :
    startsIn c.inner <+ c.starts := by
  rw [starts_eq]
  exact List.sublist_cons_self _ _

end Component

open Component (startsIn)

namespace Feature

/-- Where some features start. -/
def starts (features : List Feature) : List Position :=
  features.map fun f => f.span.start

@[simp] theorem starts_cons (f : Feature) (rest : List Feature) :
    starts (f :: rest) = f.span.start :: starts rest := rfl

@[simp] theorem starts_append (features more : List Feature) :
    starts (features ++ more) = starts features ++ starts more :=
  List.map_append

/-- A feature, left out if a vendor added it. -/
theorem starts_unprefixed {b : Bool} {f : Feature} :
    starts (if b then [] else [f]) <+ [f.span.start] := by
  cases b with
  | true => exact List.nil_sublist _
  | false => exact .refl _

/-! ## Declarations -/

theorem start_of_function? {c : Component} {f : Feature}
    (h : function? c = some f) : f.span.start = c.start := by
  obtain ⟨name, head, values, closing, -, -, rfl⟩ := function?_eq_some h
  rfl

theorem starts_functionsOf (c : Component) :
    starts (functionsOf c) <+ c.starts := by
  rw [functionsOf_eq_parts, Component.starts]
  induction c.parts with
  | nil => exact .slnil
  | cons part rest ih =>
      rw [List.filterMap_cons, List.map_cons]
      cases hpart : function? part with
      | none => exact ih.cons _
      | some f =>
          rw [starts_cons, start_of_function? hpart]
          exact ih.cons_cons _

theorem starts_ofValue (property : Text) (c : Component) :
    starts (ofValue property c) <+ c.starts := by
  unfold ofValue
  split
  · exact starts_unprefixed
  · exact starts_functionsOf c

theorem starts_flatMap {resolve : Component → List Feature}
    (h : ∀ c, starts (resolve c) <+ c.starts) (cs : List Component) :
    starts (cs.flatMap resolve) <+ startsIn cs := by
  induction cs with
  | nil => exact .slnil
  | cons c rest ih =>
      rw [List.flatMap_cons, starts_append, Component.startsIn_cons]
      exact (h c).append ih

theorem starts_ofDeclaration (d : Declaration) :
    starts (ofDeclaration d) <+ d.span.start :: startsIn d.values := by
  unfold ofDeclaration
  split
  · exact List.nil_sublist _
  · rw [starts_cons]
    exact (starts_flatMap (starts_ofValue d.name) d.values).cons_cons _

/-! ## Selectors -/

theorem starts_pseudo (p : Position) (c : Component) :
    starts (pseudo p c) <+ [p] := by
  unfold pseudo
  simp only []
  split
  · exact starts_unprefixed
  · exact starts_unprefixed
  · exact List.nil_sublist _

theorem starts_nesting (c : Component) : starts (nesting c) <+ [c.start] := by
  unfold nesting
  split
  · split
    · exact .refl _
    · exact List.nil_sublist _
  · exact List.nil_sublist _

/-- One component of a selector, with a feature of its own, its arguments and
what follows it. -/
theorem starts_selector {own inside after : List Feature} {p : Position}
    {c : Component} {rest : List Component} (hown : starts own <+ [p])
    (hinside : starts inside <+ startsIn c.inner)
    (hafter : starts after <+ startsIn rest) :
    starts (own ++ inside ++ after)
      <+ p :: (startsIn c.inner ++ startsIn rest) := by
  rw [starts_append, starts_append, List.append_assoc]
  exact hown.append (hinside.append hafter)

/-- The same behind colons, the first of which stands at `p`: the component
gives no place of its own. -/
theorem starts_selector_after {own inside after : List Feature} {p : Position}
    {c : Component} {rest : List Component} (hown : starts own <+ [p])
    (hinside : starts inside <+ startsIn c.inner)
    (hafter : starts after <+ startsIn rest) :
    starts (own ++ inside ++ after) <+ p :: startsIn (c :: rest) := by
  refine (starts_selector hown hinside hafter).trans ?_
  rw [Component.startsIn_cons]
  exact ((Component.startsIn_inner_sublist c).append_right _).cons_cons p

mutual

theorem starts_argumentSelectors (c : Component) :
    starts (argumentSelectors c) <+ startsIn c.inner := by
  match c with
  | .function _ _ values _ =>
      rw [argumentSelectors]
      exact starts_selectors values
  | .token _ | .block .. =>
      rw [argumentSelectors]
      · exact List.nil_sublist _
      · intro name head values closing h
        cases h

theorem starts_selectors (cs : List Component) :
    starts (selectors cs) <+ startsIn cs := by
  match cs with
  | [] =>
      rw [selectors]
      exact .slnil
  | c :: rest =>
      have hstarts : startsIn (c :: rest) =
          c.start :: (startsIn c.inner ++ startsIn rest) := by
        rw [Component.startsIn_cons, Component.starts_eq, List.cons_append]
      rw [selectors, hstarts]
      split
      · refine (starts_selectorsAfterColon c.start rest).trans ?_
        exact (List.sublist_append_right _ _).cons_cons c.start
      · exact starts_selector (starts_nesting c) (starts_argumentSelectors c)
          (starts_selectors rest)

theorem starts_selectorsAfterColon (p : Position) (cs : List Component) :
    starts (selectorsAfterColon p cs) <+ p :: startsIn cs := by
  match cs with
  | [] =>
      rw [selectorsAfterColon]
      exact List.nil_sublist _
  | c :: rest =>
      rw [selectorsAfterColon]
      split
      · refine (starts_selectorsAfterColons p rest).trans ?_
        rw [Component.startsIn_cons]
        exact (List.sublist_append_right _ _).cons_cons p
      · exact starts_selector_after (starts_pseudo p c)
          (starts_argumentSelectors c) (starts_selectors rest)

theorem starts_selectorsAfterColons (p : Position) (cs : List Component) :
    starts (selectorsAfterColons p cs) <+ p :: startsIn cs := by
  match cs with
  | [] =>
      rw [selectorsAfterColons]
      exact List.nil_sublist _
  | c :: rest =>
      rw [selectorsAfterColons]
      exact starts_selector_after (starts_pseudo p c)
        (starts_argumentSelectors c) (starts_selectors rest)

end

/-! ## At-rules -/

theorem start_of_mediaName? {values : List Component} {name : Text}
    {span : Span} (h : mediaName? values = some (name, span)) :
    span.start ∈ startsIn values :=
  Component.start_mem_startsIn (mem_of_mediaName? h)

mutual

theorem starts_mediaConditionsOf (c : Component) :
    starts (mediaConditionsOf c) <+ startsIn c.inner := by
  match c with
  | .token _ =>
      rw [mediaConditionsOf]
      exact .slnil
  | .function _ _ values _ =>
      rw [mediaConditionsOf]
      exact starts_mediaConditions values
  | .block _ _ values _ =>
      rw [mediaConditionsOf]
      split
      · next name span hname =>
          refine starts_unprefixed.trans ?_
          exact List.singleton_sublist.2 (start_of_mediaName? hname)
      · exact starts_mediaConditions values

theorem starts_mediaConditions (cs : List Component) :
    starts (mediaConditions cs) <+ startsIn cs := by
  match cs with
  | [] =>
      rw [mediaConditions]
      exact .slnil
  | c :: rest =>
      rw [mediaConditions, starts_append, Component.startsIn_cons]
      refine List.Sublist.append ?_ (starts_mediaConditions rest)
      exact (starts_mediaConditionsOf c).trans
        (Component.startsIn_inner_sublist c)

end

theorem starts_ofAtRule (name : Text) (span : Span) (prelude : List Component) :
    starts (ofAtRule name span prelude) <+ span.start :: startsIn prelude := by
  unfold ofAtRule ofAtRule?
  by_cases hvendor : isVendorPrefixed name = true
  · rw [if_pos hvendor]
    exact List.nil_sublist _
  · rw [if_neg hvendor]
    refine List.Sublist.cons_cons span.start ?_
    split
    · exact (starts_mediaConditions _).trans
        (Component.startsIn_sublist List.filter_sublist)
    · exact List.nil_sublist _

end Feature

/-! ## Nodes -/

namespace Node

mutual

/-- Where the components of a node and of its children start, in source order.
Malformed pieces are left out, as they are never resolved. -/
def starts : Node → List Position
  | declaration d => d.span.start :: startsIn d.values
  | rule prelude _ children => startsIn prelude ++ startsAll children
  | atRule _ span prelude _ children =>
      span.start :: (startsIn prelude ++ startsAll children)
  | malformed _ _ => []

/-- Where the components of some nodes start, in source order. -/
def startsAll : List Node → List Position
  | [] => []
  | n :: rest => starts n ++ startsAll rest

end

theorem startsAll_append (nodes more : List Node) :
    startsAll (nodes ++ more) = startsAll nodes ++ startsAll more := by
  induction nodes with
  | nil => rw [List.nil_append, startsAll, List.nil_append]
  | cons n nodes ih =>
      rw [List.cons_append, startsAll, startsAll, ih, List.append_assoc]

end Node

/-- Where some uses of features start. -/
def Occurrence.starts (uses : List Occurrence) : List Position :=
  uses.map fun o => o.feature.span.start

namespace Occurrence

@[simp] theorem starts_append (uses more : List Occurrence) :
    starts (uses ++ more) = starts uses ++ starts more :=
  List.map_append

@[simp] theorem starts_bare (features : List Feature) :
    starts (features.map bare) = Feature.starts features := by
  rw [starts, List.map_map]
  rfl

@[simp] theorem starts_under (prelude : List Component)
    (uses : List Occurrence) :
    starts (uses.map (under prelude)) = starts uses := by
  rw [starts, List.map_map]
  rfl

end Occurrence

namespace Node

mutual

theorem starts_occurrences (n : Node) :
    Occurrence.starts n.occurrences <+ n.starts := by
  match n with
  | .declaration d =>
      rw [occurrences, Occurrence.starts_bare, features_declaration, starts]
      exact Feature.starts_ofDeclaration d
  | .rule prelude block children =>
      rw [occurrences, Occurrence.starts_append, Occurrence.starts_bare, starts]
      exact (Feature.starts_selectors prelude).append
        (starts_occurrencesIn children)
  | .atRule name span prelude block children =>
      have hchildren : Occurrence.starts
          (if isSupportRule name then
            (occurrencesIn children).map (.under prelude)
          else occurrencesIn children) <+ startsAll children := by
        split
        · rw [Occurrence.starts_under]
          exact starts_occurrencesIn children
        · exact starts_occurrencesIn children
      rw [occurrences, features_atRule, Occurrence.starts_append, Occurrence.starts_bare, starts,
        ← List.cons_append]
      exact (Feature.starts_ofAtRule name span prelude).append hchildren
  | .malformed values error =>
      rw [occurrences, starts]
      exact .slnil

theorem starts_occurrencesIn (nodes : List Node) :
    Occurrence.starts (occurrencesIn nodes) <+ startsAll nodes := by
  match nodes with
  | [] =>
      rw [occurrencesIn, startsAll]
      exact .slnil
  | n :: rest =>
      rw [occurrencesIn, Occurrence.starts_append, startsAll]
      exact (starts_occurrences n).append (starts_occurrencesIn rest)

end

end Node

end StyleAudit
