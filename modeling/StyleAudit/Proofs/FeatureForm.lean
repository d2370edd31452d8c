import StyleAudit.Proofs.FeatureParts
import StyleAudit.Proofs.SmallLetters

/-!
# The forms of a feature

Whatever resolver found it, a feature of a stylesheet is made in one of seven
ways, each from a name that is in the source, except for the mark of the nesting
selector. `Feature.Form` lists them, with what was checked of the name. What
holds of all features then follows by going through the list once, such as that
every key is in small letters.

`Feature.Resolved` says less, that some resolver made a feature of what it was given.
A feature need not be in a stylesheet for it: those that are tested in a condition
come from the same resolvers.
-/

namespace StyleAudit.Feature

/-- The ways in which a feature is made. -/
inductive Form : Feature → Prop where
  | property {name : Text} (span : Span) (hcustom : isCustomProperty name = false)
      (hvendor : isVendorPrefixed name = false) :
      Form ⟨.property, Text.lower name, span, [("property", .ofText name)]⟩
  | value {property name : Text} (span : Span)
      (hcustom : isCustomProperty property = false)
      (hproperty : isVendorPrefixed property = false)
      (hvendor : isVendorPrefixed name = false) :
      Form ⟨.propertyValue, propertyValueKey property name, span,
        [("property", .ofText property), ("value", .ofText name)]⟩
  | function {name : Text} (span : Span)
      (hvendor : isVendorPrefixed name = false) :
      Form ⟨.function, Text.lower name, span, [("function", .ofText name)]⟩
  | atRule {name : Text} (span : Span)
      (hvendor : isVendorPrefixed name = false) :
      Form ⟨.atRule, Text.lower name, span, [("atRule", .ofText name)]⟩
  | pseudo {name : Text} (span : Span)
      (hvendor : isVendorPrefixed name = false) :
      Form ⟨.selector, Text.lower name, span, [("selector", .ofText name)]⟩
  | nesting (span : Span) :
      Form ⟨.selector, "nesting".toList, span, [("selector", .str "nesting")]⟩
  | media {name : Text} (span : Span)
      (hvendor : isVendorPrefixed name = false) :
      Form ⟨.mediaCondition, mediaKey name, span, [("condition", .ofText name)]⟩

theorem Selects.form {c : Component} {f : Feature} (h : Selects c f) : f.Form := by
  cases h with
  | pseudoClass start hvendor => exact .pseudo _ hvendor
  | pseudoFunction start hvendor => exact .pseudo _ hvendor
  | nesting => exact .nesting _

theorem form_of_function? {c : Component} {f : Feature} (h : function? c = some f) :
    f.Form := by
  obtain ⟨name, head, values, closing, rfl, hvendor, rfl⟩ := function?_eq_some h
  exact .function _ hvendor

theorem form_of_mem_functions {cs : List Component} {f : Feature}
    (hf : f ∈ functions cs) : f.Form := by
  obtain ⟨c, -, h⟩ := function_of_mem_functions hf
  exact form_of_function? h

theorem form_of_mem_ofDeclaration {d : Declaration} {f : Feature}
    (hf : f ∈ ofDeclaration d) : f.Form := by
  unfold ofDeclaration at hf
  split at hf
  · cases hf
  · next hname =>
      rw [Bool.or_eq_true, not_or] at hname
      have hcustom := Bool.eq_false_iff.2 hname.1
      have hvendor := Bool.eq_false_iff.2 hname.2
      rcases List.mem_cons.1 hf with rfl | hf
      · exact .property _ hcustom hvendor
      · obtain ⟨c, -, hf⟩ := List.mem_flatMap.1 hf
        rcases of_mem_ofValue hf with hkeyword | ⟨p, -, hfunction⟩
        · obtain ⟨name, span, rfl, hvalue, rfl⟩ := keyword?_eq_some hkeyword
          exact .value _ hcustom hvendor hvalue
        · exact form_of_function? hfunction

theorem form_of_mem_selectors {cs : List Component} {f : Feature}
    (hf : f ∈ selectors cs) : f.Form := by
  obtain ⟨c, -, h⟩ := selectedIn_of_mem_selectors hf
  exact h.form

theorem QueriedIn.form {cs : List Component} {f : Feature} (h : f.QueriedIn cs) : f.Form := by
  obtain ⟨name, span, -, hvendor, rfl⟩ := h
  exact .media _ hvendor

theorem form_of_mem_mediaConditions {cs : List Component} {f : Feature}
    (hf : f ∈ mediaConditions cs) : f.Form :=
  (queriedIn_of_mem_mediaConditions hf).form

theorem form_of_mem_ofAtRule {name : Text} {span : Span}
    {prelude : List Component} {f : Feature}
    (hf : f ∈ Feature.ofAtRule name span prelude) : f.Form := by
  rcases of_mem_ofAtRule hf with ⟨hvendor, rfl⟩ | hqueried
  · exact .atRule _ hvendor
  · exact hqueried.form

/-- What some resolver makes of what it is given. -/
inductive Resolved (f : Feature) : Prop where
  | declaration (d : Declaration) (h : f ∈ ofDeclaration d)
  | function (cs : List Component) (h : f ∈ functions cs)
  | atRule (name : Text) (span : Span) (h : ofAtRule? name span = some f)
  | selector (cs : List Component) (h : f ∈ selectors cs)
  | media (cs : List Component) (h : f ∈ mediaConditions cs)

theorem Resolved.form {f : Feature} (h : f.Resolved) : f.Form := by
  cases h with
  | declaration d h => exact form_of_mem_ofDeclaration h
  | function cs h => exact form_of_mem_functions h
  | atRule name span h =>
      have hmem : f ∈ ofAtRule name span [] := by
        rw [Feature.ofAtRule, h]
        exact List.mem_cons_self
      exact form_of_mem_ofAtRule hmem
  | selector cs h => exact form_of_mem_selectors h
  | media cs h => exact form_of_mem_mediaConditions h

/-- A key is in small letters. -/
theorem Form.lower_key {f : Feature} (hf : f.Form) : Text.lower f.key = f.key := by
  cases hf with
  | value span hcustom hproperty hvendor => exact Text.lower_joined _ _
  | @media name span hvendor =>
      refine Text.lower_eq_self_iff.2 fun c hc => Text.isSmall_of_mem_lower (t := name) ?_
      simp only [mediaKey] at hc
      split at hc
      · exact List.mem_of_mem_drop hc
      · exact hc
  | nesting span => exact (by decide +kernel : Text.lower "nesting".toList = "nesting".toList)
  | property | function | atRule | pseudo => exact Text.lower_lower _

end StyleAudit.Feature
