import StyleAudit.Feature.Selector

/-!
# Lists of selectors are resolved selector by selector

The reader of selectors is at any time in one of three states: outside of names, behind
one colon, or behind two. What is behind a colon is taken for the name, whatever it is,
so a colon at the end of a selector reaches for the comma. But a comma is no name, and
behind a name the reader is outside again: the features in front of a comma and those
behind it are found as if they were alone.

The same holds of all components that are no colons. One lemma for each state says so
(`selectors_split` and the two beside it): the state in which a component is met decides
what the component itself is taken for, and nothing else. From it come the commas of a
list, which are taken for nothing, and the arguments of a function, which are read once
in every state.
-/

namespace StyleAudit.Feature

/-! ## Where the reader is outside of names -/

/-- What a component can be taken for on its own: a mark of the nesting selector, or the
name behind colons. -/
inductive Taken : (Component → List Feature) → Prop where
  | mark : Taken nesting
  | name (start : Position) : Taken (pseudo start)

mutual

/-- What is read in front of a component and behind it does not depend on what stands on
the other side. -/
theorem selectors_split (before : List Component) : ∃ taken, Taken taken ∧
    ∀ (c : Component) (after : List Component), c.isColon = false →
      selectors (before ++ c :: after) =
        selectors before ++ (taken c ++ argumentSelectors c ++ selectors after) := by
  match before with
  | [] =>
      refine ⟨nesting, .mark, fun c after hc => ?_⟩
      rw [List.nil_append, selectors, selectors, if_neg (ne_true_of_eq_false hc), List.nil_append]
  | d :: before =>
      by_cases hd : d.isColon = true
      · obtain ⟨taken, htaken, h⟩ := selectorsAfterColon_split d.start before
        refine ⟨taken, htaken, fun c after hc => ?_⟩
        rw [List.cons_append, selectors, selectors, if_pos hd, if_pos hd, h c after hc]
      · obtain ⟨taken, htaken, h⟩ := selectors_split before
        refine ⟨taken, htaken, fun c after hc => ?_⟩
        rw [List.cons_append, selectors, selectors, if_neg hd, if_neg hd, h c after hc,
          List.append_assoc (nesting d ++ argumentSelectors d)]

theorem selectorsAfterColon_split (start : Position) (before : List Component) :
    ∃ taken, Taken taken ∧
      ∀ (c : Component) (after : List Component), c.isColon = false →
        selectorsAfterColon start (before ++ c :: after) =
          selectorsAfterColon start before ++
            (taken c ++ argumentSelectors c ++ selectors after) := by
  match before with
  | [] =>
      refine ⟨pseudo start, .name start, fun c after hc => ?_⟩
      rw [List.nil_append, selectorsAfterColon, selectorsAfterColon,
        if_neg (ne_true_of_eq_false hc), List.nil_append]
  | d :: before =>
      by_cases hd : d.isColon = true
      · obtain ⟨taken, htaken, h⟩ := selectorsAfterColons_split start before
        refine ⟨taken, htaken, fun c after hc => ?_⟩
        rw [List.cons_append, selectorsAfterColon, selectorsAfterColon, if_pos hd, if_pos hd,
          h c after hc]
      · obtain ⟨taken, htaken, h⟩ := selectors_split before
        refine ⟨taken, htaken, fun c after hc => ?_⟩
        rw [List.cons_append, selectorsAfterColon, selectorsAfterColon, if_neg hd, if_neg hd,
          h c after hc, List.append_assoc (pseudo start d ++ argumentSelectors d)]

theorem selectorsAfterColons_split (start : Position) (before : List Component) :
    ∃ taken, Taken taken ∧
      ∀ (c : Component) (after : List Component), c.isColon = false →
        selectorsAfterColons start (before ++ c :: after) =
          selectorsAfterColons start before ++
            (taken c ++ argumentSelectors c ++ selectors after) := by
  match before with
  | [] =>
      refine ⟨pseudo start, .name start, fun c after _ => ?_⟩
      rw [List.nil_append, selectorsAfterColons, selectorsAfterColons, List.nil_append]
  | d :: before =>
      obtain ⟨taken, htaken, h⟩ := selectors_split before
      refine ⟨taken, htaken, fun c after hc => ?_⟩
      rw [List.cons_append, selectorsAfterColons, selectorsAfterColons, h c after hc,
        List.append_assoc (pseudo start d ++ argumentSelectors d)]

end

theorem selectors_comma (before after : List Component) (comma : Span) :
    selectors (before ++ .token ⟨.comma, comma⟩ :: after) =
      selectors before ++ selectors after := by
  obtain ⟨taken, htaken, h⟩ := selectors_split before
  have hnothing : taken (.token ⟨.comma, comma⟩) = [] := by
    cases htaken with
    | mark => rfl
    | name start => rfl
  rw [h _ after rfl, hnothing, argumentSelectors]
  · rfl
  · nofun

/-- The arguments of a function add their own features, in a place that depends neither
on them nor on what follows. -/
theorem selectors_function (before : List Component) (name : Text) (head : Span)
    (closing : Option Span) : ∃ outer, ∀ values after : List Component,
      selectors (before ++ .function name head values closing :: after) =
        outer ++ (selectors values ++ selectors after) := by
  obtain ⟨taken, htaken, h⟩ := selectors_split before
  have hname : ∃ own, ∀ values, taken (.function name head values closing) = own := by
    cases htaken with
    | mark => exact ⟨[], fun values => rfl⟩
    | name start => exact ⟨pseudo start (.function name head [] closing), fun values => rfl⟩
  obtain ⟨own, hown⟩ := hname
  refine ⟨selectors before ++ own, fun values after => ?_⟩
  rw [h _ after rfl, hown, argumentSelectors, List.append_assoc, List.append_assoc]

/-! ## Lists of selectors -/

/-- The ways in which selectors are written one after the other, with commas between
them. -/
inductive Listed : List (List Component) → List Component → Prop where
  | last (s : List Component) : Listed [s] s
  | cons (s : List Component) (comma : Span) {ss : List (List Component)}
      {cs : List Component} (h : Listed ss cs) :
      Listed (s :: ss) (s ++ .token ⟨.comma, comma⟩ :: cs)

theorem Listed.selectors {ss : List (List Component)} {cs : List Component}
    (h : Listed ss cs) : selectors cs = ss.flatMap selectors := by
  induction h with
  | last s => rw [List.flatMap_singleton]
  | cons s comma h ih => rw [selectors_comma, ih, List.flatMap_cons]

/-- A place for a list of selectors: all there is, or the arguments of a function in
another place. -/
inductive Place where
  | all
  | arguments (outer : Place) (before : List Component) (name : Text) (head : Span)
      (closing : Option Span) (after : List Component)

/-- What is written when some components stand in a place. -/
def Place.fill (cs : List Component) : Place → List Component
  | all => cs
  | arguments outer before name head closing after =>
      outer.fill (before ++ .function name head cs closing :: after)

/-- What stands in a place is resolved as if it stood alone. -/
theorem Place.selectors_fill (place : Place) : ∃ before after, ∀ cs,
    selectors (place.fill cs) = before ++ (selectors cs ++ after) := by
  induction place with
  | all => exact ⟨[], [], fun cs => (List.append_nil _).symm⟩
  | arguments outer before name head closing after ih =>
      obtain ⟨front, behind, houter⟩ := ih
      obtain ⟨inner, hfunction⟩ := selectors_function before name head closing
      refine ⟨front ++ inner, selectors after ++ behind, fun cs => ?_⟩
      rw [fill, houter, hfunction]
      simp only [List.append_assoc]

/-- A list of selectors has the features of each selector in turn, whatever colons it
ends in. This is so in the arguments of any function too, at any depth: what stands
there is put between the same features as ever, and selectors in another order have the
same features in another order. -/
theorem selector_lists_resolved :
    (∀ (before after : List Component) (comma : Span),
      selectors (before ++ .token ⟨.comma, comma⟩ :: after) =
        selectors before ++ selectors after) ∧
    ∀ place : Place, ∃ before after, ∀ (ss : List (List Component)) (cs : List Component),
      Listed ss cs →
        selectors (place.fill cs) = before ++ (ss.flatMap selectors ++ after) ∧
        ∀ (ss' : List (List Component)) (cs' : List Component), Listed ss' cs' →
          ss'.Perm ss → (selectors (place.fill cs')).Perm (selectors (place.fill cs)) := by
  refine ⟨selectors_comma, fun place => ?_⟩
  obtain ⟨before, after, hfill⟩ := place.selectors_fill
  refine ⟨before, after, fun ss cs hcs => ⟨?_, fun ss' cs' hcs' hperm => ?_⟩⟩
  · rw [hfill, hcs.selectors]
  · rw [hfill, hfill, hcs.selectors, hcs'.selectors]
    exact ((hperm.flatMap_right selectors).append_right after).append_left before

/-- In the arguments of a function behind a colon, one selector that ends in two colons
and one with the mark of the nesting selector, in both orders. -/
theorem selector_lists_resolved_colons :
    let colon : Component := .token ⟨.colon, default⟩
    let comma : Component := .token ⟨.comma, default⟩
    let hover : List Component := [colon, .token ⟨.ident "hover".toList, default⟩, colon, colon]
    let mark : List Component := [.token ⟨.delim '&', default⟩]
    let inside (cs : List Component) : List Component :=
      [colon, .function "is".toList default cs none, colon]
    (∃ before after, selectors (inside (hover ++ comma :: mark)) =
      before ++ ([hover, mark].flatMap selectors ++ after)) ∧
    (selectors (inside (mark ++ comma :: hover))).Perm
      (selectors (inside (hover ++ comma :: mark))) ∧
    (selectors (inside (hover ++ comma :: mark))).map key =
      ["is".toList, "hover".toList, "nesting".toList] := by
  intro colon comma hover mark inside
  obtain ⟨-, hplaces⟩ := selector_lists_resolved
  obtain ⟨before, after, h⟩ :=
    hplaces (.arguments .all [colon] "is".toList default none [colon])
  obtain ⟨heq, hperm⟩ := h _ _ (.cons hover default (.last mark))
  refine ⟨⟨before, after, heq⟩, ?_, ?_⟩
  · exact hperm _ _ (.cons mark default (.last hover)) (List.Perm.swap _ _ _)
  · decide +kernel

end StyleAudit.Feature
