import StyleAudit.Audit.Walk

/-!
# Where the features of components are

Each resolver searches components in its own way and depth. Where a feature comes
from can be said without the search: it is made from one component, somewhere among
the parts of what the resolver was given. For the functions of a value this is all
there is to it, and `functions_eq_parts` is an equation. In selectors and media
queries what stands around a part decides too, and there is one statement for each:
a feature that is found names a part, in one of few ways.
-/

namespace StyleAudit

namespace Component

mutual

/-- A component and all that is in it, in source order. -/
def parts : Component → List Component
  | token t => [token t]
  | function name head values closing =>
      function name head values closing :: partsAll values
  | block bracket opening values closing =>
      block bracket opening values closing :: partsAll values

/-- Some components and all that is in them, in source order. -/
def partsAll : List Component → List Component
  | [] => []
  | c :: rest => parts c ++ partsAll rest

end

theorem parts_subset {c : Component} {cs : List Component} (h : c ∈ cs) :
    c.parts ⊆ partsAll cs := by
  induction cs with
  | nil => cases h
  | cons d rest ih =>
      rw [partsAll]
      rcases List.mem_cons.1 h with rfl | h
      · exact List.subset_append_left ..
      · exact fun x hx => List.mem_append_right _ (ih h hx)

theorem mem_parts_self (c : Component) : c ∈ c.parts := by
  cases c <;> simp [parts]

theorem mem_partsAll {c : Component} {cs : List Component} (h : c ∈ cs) : c ∈ partsAll cs :=
  parts_subset h c.mem_parts_self

theorem partsAll_subset {cs ds : List Component} (h : cs ⊆ ds) :
    partsAll cs ⊆ partsAll ds := by
  induction cs with
  | nil =>
      rw [partsAll]
      exact List.nil_subset _
  | cons c rest ih =>
      rw [partsAll]
      obtain ⟨hc, hrest⟩ := List.cons_subset.1 h
      exact List.append_subset.2 ⟨parts_subset hc, ih hrest⟩

end Component

open Component (partsAll parts_subset mem_parts_self mem_partsAll partsAll_subset)

namespace Feature

variable {f : Feature}

theorem of_mem_unprefixed {name : Text} {g : Feature}
    (hf : f ∈ if isVendorPrefixed name then [] else [g]) :
    isVendorPrefixed name = false ∧ f = g := by
  split at hf
  · cases hf
  · next hvendor => exact ⟨Bool.eq_false_iff.2 hvendor, List.mem_singleton.1 hf⟩

/-! ## Declarations -/

/-- The keyword that a component is as a value of a property. -/
def keyword? (property : Text) : Component → Option Feature
  | .token ⟨.ident name, span⟩ =>
      if isVendorPrefixed name then none
      else some ⟨.propertyValue, propertyValueKey property name, span,
        [("property", .ofText property), ("value", .ofText name)]⟩
  | _ => none

/-- The function that a component is, whatever it stands in. -/
def function? : Component → Option Feature
  | .function name head values closing =>
      if isVendorPrefixed name then none
      else some ⟨.function, Text.lower name,
        (Component.function name head values closing).span,
        [("function", .ofText name)]⟩
  | _ => none

mutual

theorem functionsOf_eq_parts (c : Component) :
    functionsOf c = c.parts.filterMap function? := by
  match c with
  | .token t => rw [functionsOf, Component.parts]; rfl
  | .block bracket opening values closing =>
      rw [functionsOf, Component.parts, functions_eq_parts values]
      rfl
  | .function name head values closing =>
      rw [functionsOf, Component.parts, functions_eq_parts values,
        List.filterMap_cons, function?]
      split <;> rfl

theorem functions_eq_parts (cs : List Component) :
    functions cs = (Component.partsAll cs).filterMap function? := by
  match cs with
  | [] => rw [functions, Component.partsAll]; rfl
  | c :: rest =>
      rw [functions, Component.partsAll, List.filterMap_append,
        functionsOf_eq_parts c, functions_eq_parts rest]

end

theorem ofValue_eq_parts (property : Text) (c : Component) :
    ofValue property c =
      (keyword? property c).toList ++ c.parts.filterMap function? := by
  unfold ofValue
  split
  · rw [Component.parts, keyword?]
    split <;> rfl
  · next hident =>
      rw [functionsOf_eq_parts, keyword?, Option.toList_none, List.nil_append]
      exact hident

theorem keyword?_eq_some {property : Text} {c : Component} (h : keyword? property c = some f) :
    ∃ name span, c = .token ⟨.ident name, span⟩ ∧ isVendorPrefixed name = false ∧
      f = ⟨.propertyValue, propertyValueKey property name, span,
        [("property", .ofText property), ("value", .ofText name)]⟩ := by
  unfold keyword? at h
  split at h
  · split at h
    · cases h
    · next hvendor => exact ⟨_, _, rfl, Bool.eq_false_iff.2 hvendor, (Option.some.inj h).symm⟩
  · cases h

theorem function?_eq_some {c : Component} (h : function? c = some f) :
    ∃ name head values closing, c = .function name head values closing ∧
      isVendorPrefixed name = false ∧
      f = ⟨.function, Text.lower name, c.span, [("function", .ofText name)]⟩ := by
  unfold function? at h
  split at h
  · split at h
    · cases h
    · next hvendor =>
        exact ⟨_, _, _, _, rfl, Bool.eq_false_iff.2 hvendor, (Option.some.inj h).symm⟩
  · cases h

theorem function_of_mem_functions {cs : List Component} (hf : f ∈ functions cs) :
    ∃ c ∈ partsAll cs, function? c = some f := by
  rw [functions_eq_parts] at hf
  exact List.mem_filterMap.1 hf

theorem of_mem_ofValue {property : Text} {c : Component} (hf : f ∈ ofValue property c) :
    keyword? property c = some f ∨ ∃ p ∈ c.parts, function? p = some f := by
  rw [ofValue_eq_parts, List.mem_append, Option.mem_toList] at hf
  exact hf.imp_right List.mem_filterMap.1

/-! ## Selectors -/

/-- The ways in which a part of a selector names a feature: behind a colon, as a name or
a function, or as the mark of the nesting selector. -/
inductive Selects : Component → Feature → Prop where
  | pseudoClass {name : Text} {span : Span} (start : Position)
      (hvendor : isVendorPrefixed name = false) :
      Selects (.token ⟨.ident name, span⟩)
        ⟨.selector, Text.lower name, ⟨start, span.stop⟩, [("selector", .ofText name)]⟩
  | pseudoFunction {name : Text} {head : Span} {values : List Component} {closing : Option Span}
      (start : Position) (hvendor : isVendorPrefixed name = false) :
      Selects (.function name head values closing)
        ⟨.selector, Text.lower name, ⟨start, head.nameEnd⟩, [("selector", .ofText name)]⟩
  | nesting {span : Span} :
      Selects (.token ⟨.delim '&', span⟩)
        ⟨.selector, "nesting".toList, span, [("selector", .str "nesting")]⟩

theorem selects_of_mem_pseudo {start : Position} {c : Component} (hf : f ∈ pseudo start c) :
    Selects c f := by
  unfold pseudo at hf
  dsimp only at hf
  split at hf
  · obtain ⟨hvendor, rfl⟩ := of_mem_unprefixed hf
    exact .pseudoClass start hvendor
  · obtain ⟨hvendor, rfl⟩ := of_mem_unprefixed hf
    exact .pseudoFunction start hvendor
  · cases hf

theorem selects_of_mem_nesting {c : Component} (hf : f ∈ nesting c) : Selects c f := by
  unfold nesting at hf
  split at hf
  · split at hf
    · next hmark =>
        subst hmark
        rw [List.mem_singleton.1 hf]
        exact .nesting
    · cases hf
  · cases hf

/-- Some part of some components names a feature. -/
def SelectedIn (f : Feature) (cs : List Component) : Prop := ∃ p ∈ partsAll cs, Selects p f

theorem SelectedIn.mono {cs ds : List Component} (h : f.SelectedIn cs) (hsub : cs ⊆ ds) :
    f.SelectedIn ds := by
  obtain ⟨p, hp, hselects⟩ := h
  exact ⟨p, partsAll_subset hsub hp, hselects⟩

theorem SelectedIn.head {c : Component} {rest : List Component} (h : Selects c f) :
    f.SelectedIn (c :: rest) := ⟨c, mem_partsAll List.mem_cons_self, h⟩

mutual

theorem selectedIn_of_mem_argumentSelectors {c : Component} (hf : f ∈ argumentSelectors c)
    (rest : List Component) : f.SelectedIn (c :: rest) := by
  match c with
  | .function name head values closing =>
      rw [argumentSelectors] at hf
      obtain ⟨p, hp, hselects⟩ := selectedIn_of_mem_selectors hf
      refine ⟨p, parts_subset List.mem_cons_self ?_, hselects⟩
      rw [Component.parts]
      exact List.mem_cons_of_mem _ hp
  | .token _ | .block .. =>
      rw [argumentSelectors] at hf
      · cases hf
      · intro name head values closing h
        cases h

/-- A feature that is found in a selector names a part of it. -/
theorem selectedIn_of_mem_selectors {cs : List Component} (hf : f ∈ selectors cs) :
    f.SelectedIn cs := by
  match cs with
  | [] =>
      rw [selectors] at hf
      cases hf
  | c :: rest =>
      rw [selectors] at hf
      split at hf
      · exact (selectedIn_of_mem_selectorsAfterColon hf).mono (List.subset_cons_self ..)
      · rw [List.mem_append, List.mem_append] at hf
        rcases hf with (hmark | harguments) | hrest
        · exact .head (selects_of_mem_nesting hmark)
        · exact selectedIn_of_mem_argumentSelectors harguments rest
        · exact (selectedIn_of_mem_selectors hrest).mono (List.subset_cons_self ..)

theorem selectedIn_of_mem_selectorsAfterColon {start : Position} {cs : List Component}
    (hf : f ∈ selectorsAfterColon start cs) : f.SelectedIn cs := by
  match cs with
  | [] =>
      rw [selectorsAfterColon] at hf
      cases hf
  | c :: rest =>
      rw [selectorsAfterColon] at hf
      split at hf
      · exact (selectedIn_of_mem_selectorsAfterColons hf).mono (List.subset_cons_self ..)
      · rw [List.mem_append, List.mem_append] at hf
        rcases hf with (hname | harguments) | hrest
        · exact .head (selects_of_mem_pseudo hname)
        · exact selectedIn_of_mem_argumentSelectors harguments rest
        · exact (selectedIn_of_mem_selectors hrest).mono (List.subset_cons_self ..)

theorem selectedIn_of_mem_selectorsAfterColons {start : Position} {cs : List Component}
    (hf : f ∈ selectorsAfterColons start cs) : f.SelectedIn cs := by
  match cs with
  | [] =>
      rw [selectorsAfterColons] at hf
      cases hf
  | c :: rest =>
      rw [selectorsAfterColons, List.mem_append, List.mem_append] at hf
      rcases hf with (hname | harguments) | hrest
      · exact .head (selects_of_mem_pseudo hname)
      · exact selectedIn_of_mem_argumentSelectors harguments rest
      · exact (selectedIn_of_mem_selectors hrest).mono (List.subset_cons_self ..)

end

/-! ## Media queries -/

theorem token_of_identifier? {c : Component} {name : Text} {span : Span}
    (h : identifier? c = some (name, span)) : c = .token ⟨.ident name, span⟩ := by
  unfold identifier? at h
  split at h
  · cases h
    rfl
  · cases h

theorem mem_of_compared? {cs : List Component} {name : Text} {span : Span}
    (h : compared? cs = some (name, span)) : .token ⟨.ident name, span⟩ ∈ cs := by
  match cs with
  | [] | [_] => cases h
  | c :: d :: rest =>
      rw [compared?] at h
      split at h
      · next found hfound =>
          split at hfound
          · cases h
            rw [← token_of_identifier? hfound]
            simp
          · cases hfound
      · exact List.mem_cons_of_mem _ (mem_of_compared? h)

theorem mem_of_mediaName? {values : List Component} {name : Text} {span : Span}
    (h : mediaName? values = some (name, span)) : .token ⟨.ident name, span⟩ ∈ values := by
  refine (List.mem_filter (p := fun c : Component => !c.isWhitespace)).1 ?_ |>.1
  unfold mediaName? at h
  split at h
  · cases h
  · next c rest hcs =>
      rw [hcs]
      split at h
      · next found hfound =>
          have hfound' : identifier? c = some (name, span) := by
            split at h
            · exact hfound.trans h
            · split at h
              · exact hfound.trans h
              · cases h
          rw [token_of_identifier? hfound']
          exact List.mem_cons_self
      · exact mem_of_compared? h

/-- A name among the parts of some components is that of a media feature. -/
def QueriedIn (f : Feature) (cs : List Component) : Prop :=
  ∃ name span, .token ⟨.ident name, span⟩ ∈ partsAll cs ∧ isVendorPrefixed name = false ∧
    f = ⟨.mediaCondition, mediaKey name, span, [("condition", .ofText name)]⟩

theorem QueriedIn.of_parts {cs ds : List Component} (h : f.QueriedIn cs)
    (hsub : partsAll cs ⊆ partsAll ds) : f.QueriedIn ds := by
  obtain ⟨name, span, hmem, hvendor, heq⟩ := h
  exact ⟨name, span, hsub hmem, hvendor, heq⟩

mutual

theorem queriedIn_of_mem_mediaConditionsOf {c : Component} (hf : f ∈ mediaConditionsOf c)
    (rest : List Component) : f.QueriedIn (c :: rest) := by
  have hparts : c.parts ⊆ partsAll (c :: rest) := parts_subset List.mem_cons_self
  match c with
  | .token t =>
      rw [mediaConditionsOf] at hf
      cases hf
  | .function name head values closing =>
      rw [mediaConditionsOf] at hf
      rw [Component.parts] at hparts
      exact (queriedIn_of_mem_mediaConditions hf).of_parts (List.cons_subset.1 hparts).2
  | .block bracket opening values closing =>
      rw [mediaConditionsOf] at hf
      rw [Component.parts] at hparts
      have hinner := (List.cons_subset.1 hparts).2
      split at hf
      · next name span hname =>
          obtain ⟨hvendor, rfl⟩ := of_mem_unprefixed hf
          exact ⟨name, span, hinner (mem_partsAll (mem_of_mediaName? hname)), hvendor, rfl⟩
      · exact (queriedIn_of_mem_mediaConditions hf).of_parts hinner

/-- A feature that is found in media queries is named by a part of them. -/
theorem queriedIn_of_mem_mediaConditions {cs : List Component} (hf : f ∈ mediaConditions cs) :
    f.QueriedIn cs := by
  match cs with
  | [] =>
      rw [mediaConditions] at hf
      cases hf
  | c :: rest =>
      rw [mediaConditions] at hf
      rcases List.mem_append.1 hf with hc | hrest
      · exact queriedIn_of_mem_mediaConditionsOf hc rest
      · exact (queriedIn_of_mem_mediaConditions hrest).of_parts
          (partsAll_subset (List.subset_cons_self ..))

end

/-! ## At-rules -/

/-- The features of an at-rule: the rule itself, and those that its media queries name. -/
theorem of_mem_ofAtRule {name : Text} {span : Span} {prelude : List Component}
    (hf : f ∈ Feature.ofAtRule name span prelude) :
    (isVendorPrefixed name = false ∧
      f = ⟨.atRule, Text.lower name, span, [("atRule", .ofText name)]⟩) ∨
    f.QueriedIn prelude := by
  unfold Feature.ofAtRule ofAtRule? at hf
  by_cases hvendor : isVendorPrefixed name = true
  · rw [if_pos hvendor] at hf
    cases hf
  · rw [if_neg hvendor] at hf
    rcases List.mem_cons.1 hf with rfl | hf
    · exact .inl ⟨Bool.eq_false_iff.2 hvendor, rfl⟩
    · split at hf
      · exact .inr ((queriedIn_of_mem_mediaConditions hf).of_parts
          (partsAll_subset List.filter_sublist.subset))
      · cases hf

end Feature

end StyleAudit
