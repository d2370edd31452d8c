import Mathlib.Data.List.Forall2
import StyleAudit.Proofs.Occurrences
import StyleAudit.Proofs.Respelling

/-!
# The features of a respelled stylesheet

Features are told apart by keys, and keys are in small letters. So a stylesheet
and a respelled one use the same features in the same order: `Respelled` relates
two uses that have one kind and one key, with names and places respelled. The
condition of a support rule is the same before and after, since nothing is left
of a test but the keys in it.

A place that a resolver computes, the end of a name in front of a parenthesis,
moves with the others only if respelling keeps columns next to each other, which
a respelling that merely forgets places does not. So spans are respelled as a
whole by rigid respellings alone.
-/

namespace StyleAudit

namespace Respelling

variable (r : Respelling)

/-- Places that follow each other in a line still do so. -/
def Rigid : Prop :=
  ∀ p : Position, r.place ⟨p.line, p.column - 1⟩ =
    ⟨(r.place p).line, (r.place p).column - 1⟩

def json : Json → Json
  | .str s => .str (String.ofList (r.name s.toList))
  | j => j

def details (d : Details) : Details := d.map fun (word, value) => (word, r.json value)

theorem details_eq (h : ∀ t, r.name t = t) (d : Details) : r.details d = d := by
  have hjson (j : Json) : r.json j = j := by
    cases j <;> simp [json, h]
  simp [details, hjson]

theorem json_ofText (t : Text) : r.json (.ofText t) = .ofText (r.name t) := by
  rw [Json.ofText, json, String.toList_ofList, Json.ofText]

theorem details_name (word : String) (name : Text) :
    [(word, Json.ofText (r.name name))] = r.details [(word, .ofText name)] := by
  rw [← json_ofText]
  rfl

end Respelling

/-- The use of a feature, and the same use respelled. It may end with a name in
front of a parenthesis; that end is found by going back from the end of a token. -/
structure Feature.Respelled (r : Respelling) (f g : Feature) : Prop where
  kind : g.kind = f.kind
  key : g.key = f.key
  details : g.details = r.details f.details
  start : g.span.start = r.place f.span.start
  stop : g.span.stop = r.place f.span.stop ∨
    ∃ head : Span, f.span.stop = head.nameEnd ∧ g.span.stop = (r.span head).nameEnd

theorem Feature.Respelled.span {r : Respelling} {f g : Feature}
    (h : f.Respelled r g) (hrigid : r.Rigid) : g.span = r.span f.span := by
  have hstop : g.span.stop = r.place f.span.stop := by
    rcases h.stop with hstop | ⟨head, hstop, hstop'⟩
    · exact hstop
    · rw [hstop, hstop']
      exact (hrigid head.stop).symm
  exact congrArg₂ Span.mk h.start hstop

theorem Feature.Respelled.scopeKey {r : Respelling} {f g : Feature}
    (h : f.Respelled r g) : g.scopeKey = f.scopeKey := by
  rw [Feature.scopeKey, h.kind, h.key, Feature.scopeKey]

/-- A use with what is around it, and the same use respelled: it is granted the
same keys. -/
structure Occurrence.Respelled (r : Respelling) (o o' : Occurrence) : Prop where
  feature : o.feature.Respelled r o'.feature
  granted : o'.granted = o.granted

namespace Respelling

variable (r : Respelling)

open Feature (Respelled isVendorPrefixed)
open List (Forall₂)

theorem isVendorPrefixed_name (name : Text) :
    isVendorPrefixed (r.name name) = isVendorPrefixed name := by
  rw [isVendorPrefixed, r.lower_name, isVendorPrefixed]

/-- A name with a vendor's mark gives no feature, however it is spelled. -/
theorem respelled_unprefixed {name : Text} {f g : Feature} (h : f.Respelled r g) :
    Forall₂ (Respelled r) (if isVendorPrefixed name then [] else [f])
      (if isVendorPrefixed (r.name name) then [] else [g]) := by
  rw [isVendorPrefixed_name]
  split
  · exact .nil
  · exact .cons h .nil

/-! ## Declarations -/

mutual

theorem stop_component (c : Component) :
    (r.component c).stop = r.place c.stop := by
  match c with
  | .token t => rw [component_token, Component.stop, Component.stop]; rfl
  | .function name head values closing =>
      rw [component_function]
      cases closing with
      | some s => rw [Option.map_some, Component.stop, Component.stop]; rfl
      | none =>
          rw [Option.map_none, Component.stop, Component.stop]
          exact lastStop_component head.stop values
  | .block bracket opening values closing =>
      rw [component_block]
      cases closing with
      | some s => rw [Option.map_some, Component.stop, Component.stop]; rfl
      | none =>
          rw [Option.map_none, Component.stop, Component.stop]
          exact lastStop_component opening.stop values

theorem lastStop_component (p : Position) (cs : List Component) :
    Component.lastStop (r.place p) (cs.map r.component) =
      r.place (Component.lastStop p cs) := by
  match cs with
  | [] => rw [List.map_nil, Component.lastStop, Component.lastStop]
  | c :: rest =>
      rw [List.map_cons, Component.lastStop, Component.lastStop, stop_component c,
        lastStop_component c.stop rest]

end

theorem span_component (c : Component) : (r.component c).span = r.span c.span := by
  rw [Component.span, start_component, stop_component]
  rfl

mutual

theorem functionsOf_component (c : Component) :
    Forall₂ (Respelled r) (Feature.functionsOf c)
      (Feature.functionsOf (r.component c)) := by
  match c with
  | .token t =>
      rw [component_token, Feature.functionsOf, Feature.functionsOf]
      exact .nil
  | .block bracket opening values closing =>
      rw [component_block, Feature.functionsOf, Feature.functionsOf]
      exact functions_component values
  | .function name head values closing =>
      have hspan := r.span_component (.function name head values closing)
      rw [component_function] at hspan ⊢
      rw [Feature.functionsOf, Feature.functionsOf]
      refine List.rel_append (r.respelled_unprefixed ?_) (functions_component values)
      exact ⟨rfl, r.lower_name name, r.details_name _ _, congrArg Span.start hspan,
        .inl (congrArg Span.stop hspan)⟩

theorem functions_component (cs : List Component) :
    Forall₂ (Respelled r) (Feature.functions cs)
      (Feature.functions (cs.map r.component)) := by
  match cs with
  | [] =>
      rw [List.map_nil, Feature.functions]
      exact .nil
  | c :: rest =>
      rw [List.map_cons, Feature.functions, Feature.functions]
      exact List.rel_append (functionsOf_component c) (functions_component rest)

end

theorem ofValue_component (property : Text) (c : Component) :
    Forall₂ (Respelled r) (Feature.ofValue property c)
      (Feature.ofValue (r.name property) (r.component c)) := by
  cases c with
  | token t =>
      obtain ⟨kind, span⟩ := t
      have hkey (name : Text) : Feature.propertyValueKey (r.name property) (r.name name) =
          Feature.propertyValueKey property name := by
        rw [Feature.propertyValueKey, r.lower_name, r.lower_name,
          Feature.propertyValueKey]
      rw [component_token]
      cases kind with
      | ident name =>
          exact r.respelled_unprefixed
            ⟨rfl, hkey name, by simp [details, json_ofText], rfl, .inl rfl⟩
      | _ =>
          simp only [Feature.ofValue, token, kind, Feature.functionsOf]
          exact .nil
  | function name head values closing =>
      have h := r.functionsOf_component (.function name head values closing)
      rw [component_function] at h ⊢
      exact h
  | block bracket opening values closing =>
      have h := r.functionsOf_component (.block bracket opening values closing)
      rw [component_block] at h ⊢
      exact h

theorem ofDeclaration_declaration (d : Declaration) :
    Forall₂ (Respelled r) (Feature.ofDeclaration d)
      (Feature.ofDeclaration (r.declaration d)) := by
  have hvalues (values : List Component) :
      Forall₂ (Respelled r) (values.flatMap (Feature.ofValue d.name))
        ((values.map r.component).flatMap (Feature.ofValue (r.name d.name))) := by
    induction values with
    | nil => exact .nil
    | cons c rest ih =>
        rw [List.map_cons, List.flatMap_cons, List.flatMap_cons]
        exact List.rel_append (r.ofValue_component d.name c) ih
  unfold Feature.ofDeclaration
  simp only [declaration, r.custom_name, isVendorPrefixed_name]
  split
  · exact .nil
  · exact .cons ⟨rfl, r.lower_name d.name, r.details_name _ _,
      rfl, .inl rfl⟩ (hvalues d.values)

/-! ## Selectors -/

theorem pseudo_component (start : Position) (c : Component) :
    Forall₂ (Respelled r) (Feature.pseudo start c)
      (Feature.pseudo (r.place start) (r.component c)) := by
  cases c with
  | token t =>
      obtain ⟨kind, span⟩ := t
      rw [component_token]
      cases kind with
      | ident name =>
          exact r.respelled_unprefixed ⟨rfl, r.lower_name name,
            r.details_name _ _, rfl, .inl rfl⟩
      | _ => exact .nil
  | function name head values closing =>
      rw [component_function]
      exact r.respelled_unprefixed ⟨rfl, r.lower_name name,
        r.details_name _ _, rfl, .inr ⟨head, rfl, rfl⟩⟩
  | block bracket opening values closing =>
      rw [component_block]
      exact .nil

theorem nesting_component (c : Component) :
    Forall₂ (Respelled r) (Feature.nesting c)
      (Feature.nesting (r.component c)) := by
  cases c with
  | token t =>
      obtain ⟨kind, span⟩ := t
      rw [component_token]
      cases kind with
      | delim mark =>
          show Forall₂ _ (if mark = '&' then _ else _) (if mark = '&' then _ else _)
          have hname := r.json_ofText "nesting".toList
          rw [r.nesting_name] at hname
          split
          · exact .cons ⟨rfl, rfl, congrArg (fun v => [("selector", v)]) hname.symm,
              rfl, .inl rfl⟩ .nil
          · exact .nil
      | _ => exact .nil
  | function name head values closing =>
      rw [component_function]
      exact .nil
  | block bracket opening values closing =>
      rw [component_block]
      exact .nil

mutual

theorem argumentSelectors_component (c : Component) :
    Forall₂ (Respelled r) (Feature.argumentSelectors c)
      (Feature.argumentSelectors (r.component c)) := by
  match c with
  | .token t =>
      rw [component_token, Feature.argumentSelectors, Feature.argumentSelectors]
      all_goals simp
  | .function name head values closing =>
      rw [component_function, Feature.argumentSelectors, Feature.argumentSelectors]
      exact selectors_component values
  | .block bracket opening values closing =>
      rw [component_block, Feature.argumentSelectors, Feature.argumentSelectors]
      all_goals simp

theorem selectors_component (cs : List Component) :
    Forall₂ (Respelled r) (Feature.selectors cs)
      (Feature.selectors (cs.map r.component)) := by
  match cs with
  | [] =>
      rw [List.map_nil, Feature.selectors]
      exact .nil
  | c :: rest =>
      rw [List.map_cons, Feature.selectors, Feature.selectors, isColon_component,
        start_component]
      split
      · exact selectorsAfterColon_component c.start rest
      · exact List.rel_append (List.rel_append (r.nesting_component c)
          (argumentSelectors_component c)) (selectors_component rest)

theorem selectorsAfterColon_component (start : Position) (cs : List Component) :
    Forall₂ (Respelled r) (Feature.selectorsAfterColon start cs)
      (Feature.selectorsAfterColon (r.place start) (cs.map r.component)) := by
  match cs with
  | [] =>
      rw [List.map_nil, Feature.selectorsAfterColon, Feature.selectorsAfterColon]
      exact .nil
  | c :: rest =>
      rw [List.map_cons, Feature.selectorsAfterColon, Feature.selectorsAfterColon,
        isColon_component]
      split
      · exact selectorsAfterColons_component start rest
      · exact List.rel_append (List.rel_append (r.pseudo_component start c)
          (argumentSelectors_component c)) (selectors_component rest)

theorem selectorsAfterColons_component (start : Position) (cs : List Component) :
    Forall₂ (Respelled r) (Feature.selectorsAfterColons start cs)
      (Feature.selectorsAfterColons (r.place start) (cs.map r.component)) := by
  match cs with
  | [] =>
      rw [List.map_nil, Feature.selectorsAfterColons, Feature.selectorsAfterColons]
      exact .nil
  | c :: rest =>
      rw [List.map_cons, Feature.selectorsAfterColons, Feature.selectorsAfterColons]
      exact List.rel_append (List.rel_append (r.pseudo_component start c)
        (argumentSelectors_component c)) (selectors_component rest)

end

/-! ## Media queries -/

def identifier (found : Text × Span) : Text × Span :=
  (r.name found.1, r.span found.2)

theorem isComparison_component (c : Component) :
    Feature.isComparison (r.component c) = Feature.isComparison c := by
  rw [Feature.isComparison, kind?_component, Feature.isComparison]
  cases c.kind? with
  | none => rfl
  | some k => cases k <;> rfl

theorem identifier?_component (c : Component) :
    Feature.identifier? (r.component c) =
      (Feature.identifier? c).map r.identifier := by
  cases c with
  | token t =>
      obtain ⟨kind, span⟩ := t
      rw [component_token]
      cases kind <;> rfl
  | function => rw [component_function]; rfl
  | block => rw [component_block]; rfl

theorem compared?_component (cs : List Component) :
    Feature.compared? (cs.map r.component) =
      (Feature.compared? cs).map r.identifier := by
  match cs with
  | [] => rfl
  | [c] => rfl
  | c :: d :: rest =>
      have ih := compared?_component (d :: rest)
      rw [List.map_cons] at ih
      rw [List.map_cons, List.map_cons, Feature.compared?, Feature.compared?,
        isComparison_component, identifier?_component, ih]
      cases Feature.isComparison c with
      | false => rfl
      | true => cases Feature.identifier? d <;> rfl

theorem mediaName?_component (values : List Component) :
    Feature.mediaName? (values.map r.component) =
      (Feature.mediaName? values).map r.identifier := by
  unfold Feature.mediaName?
  rw [List.filter_map]
  simp only [Function.comp_def, isWhitespace_component]
  cases values.filter (fun c => !c.isWhitespace) with
  | nil => rfl
  | cons c rest =>
      simp only [List.map_cons, identifier?_component]
      cases Feature.identifier? c with
      | none => exact r.compared?_component (c :: rest)
      | some found =>
          cases rest with
          | nil => rfl
          | cons d rest =>
              simp only [Option.map_some, List.map_cons, isColon_component,
                isComparison_component]
              split <;> rfl

theorem mediaKey_name (name : Text) :
    Feature.mediaKey (r.name name) = Feature.mediaKey name := by
  rw [Feature.mediaKey, r.lower_name, Feature.mediaKey]

mutual

theorem mediaConditionsOf_component (c : Component) :
    Forall₂ (Respelled r) (Feature.mediaConditionsOf c)
      (Feature.mediaConditionsOf (r.component c)) := by
  match c with
  | .token t =>
      rw [component_token, Feature.mediaConditionsOf, Feature.mediaConditionsOf]
      exact .nil
  | .function name head values closing =>
      rw [component_function, Feature.mediaConditionsOf, Feature.mediaConditionsOf]
      exact mediaConditions_component values
  | .block bracket opening values closing =>
      rw [component_block, Feature.mediaConditionsOf, Feature.mediaConditionsOf,
        mediaName?_component]
      cases Feature.mediaName? values with
      | none => exact mediaConditions_component values
      | some found =>
          exact r.respelled_unprefixed ⟨rfl, r.mediaKey_name found.1,
            r.details_name _ _, rfl, .inl rfl⟩

theorem mediaConditions_component (cs : List Component) :
    Forall₂ (Respelled r) (Feature.mediaConditions cs)
      (Feature.mediaConditions (cs.map r.component)) := by
  match cs with
  | [] =>
      rw [List.map_nil, Feature.mediaConditions]
      exact .nil
  | c :: rest =>
      rw [List.map_cons, Feature.mediaConditions, Feature.mediaConditions]
      exact List.rel_append (mediaConditionsOf_component c)
        (mediaConditions_component rest)

end

theorem mediaQueries_component (prelude : List Component) :
    Feature.mediaQueries (prelude.map r.component) =
      (Feature.mediaQueries prelude).map r.component := by
  unfold Feature.mediaQueries
  rw [List.filter_map]
  congr 2
  funext c
  cases c with
  | token t =>
      obtain ⟨kind, span⟩ := t
      rw [Function.comp_apply, component_token]
      cases kind <;> rfl
  | function => rw [Function.comp_apply, component_function]
  | block => rw [Function.comp_apply, component_block]

theorem ofAtRule_component (name : Text) (span : Span) (prelude : List Component) :
    Forall₂ (Respelled r) (Feature.ofAtRule name span prelude)
      (Feature.ofAtRule (r.name name) (r.span span) (prelude.map r.component)) := by
  unfold Feature.ofAtRule Feature.ofAtRule?
  rw [isVendorPrefixed_name, mediaQueries_component]
  cases isVendorPrefixed name with
  | true => exact .nil
  | false =>
      simp only [Bool.false_eq_true, if_false, r.lower_name]
      refine .cons ⟨rfl, rfl, r.details_name _ _, rfl, .inl rfl⟩ ?_
      split
      · exact r.mediaConditions_component _
      · exact .nil

/-! ## Conditions of support -/

theorem keysOf_respelled {fs gs : List Feature} (h : Forall₂ (Respelled r) fs gs) :
    Condition.keysOf gs = Condition.keysOf fs := by
  induction h with
  | nil => rfl
  | cons h _ ih =>
      rw [Condition.keysOf] at ih ⊢
      rw [List.map_cons, h.scopeKey, ih]
      rfl

theorem declaration?_component (values : List Component) :
    Condition.declaration? (values.map r.component) =
      (Condition.declaration? values).map r.declaration := by
  unfold Condition.declaration?
  rw [dropWhile_component]
  match values.dropWhile Component.isWhitespace with
  | [] => rfl
  | .function .. :: _ => rw [List.map_cons, component_function]; rfl
  | .block .. :: _ => rw [List.map_cons, component_block]; rfl
  | .token ⟨kind, span⟩ :: rest =>
      rw [List.map_cons, component_token]
      cases kind with
      | ident name =>
          simp only [token, kind, dropWhile_component]
          match rest.dropWhile Component.isWhitespace with
          | [] => rfl
          | .function .. :: _ => rw [List.map_cons, component_function]; rfl
          | .block .. :: _ => rw [List.map_cons, component_block]; rfl
          | .token ⟨kind, _⟩ :: body =>
              rw [List.map_cons, component_token]
              cases kind with
              | colon => simp only [token, kind, trim_component]; rfl
              | _ => rfl
      | _ => rfl

theorem isWord_component (word : Text) (c : Component) :
    Condition.isWord word (r.component c) = Condition.isWord word c := by
  rw [Condition.isWord, ident?_component, Condition.isWord, Option.any_map]
  simp only [r.lower_name]

theorem isOperator_component (c : Component) :
    Condition.isOperator (r.component c) = Condition.isOperator c := by
  rw [Condition.isOperator, Condition.isAnd, isWord_component, Condition.isOr,
    isWord_component]
  rfl

theorem join_component (terms : List Condition) (cs : List Component) :
    Condition.join terms (cs.map r.component) = Condition.join terms cs := by
  have hor : (cs.map r.component).any Condition.isOr = cs.any Condition.isOr := by
    rw [List.any_map]
    congr 1
    exact funext (r.isWord_component _)
  have hoperator : (cs.map r.component).any Condition.isOperator =
      cs.any Condition.isOperator := by
    rw [List.any_map]
    congr 1
    exact funext r.isOperator_component
  unfold Condition.join
  rw [hor, hoperator]

mutual

theorem ofTerm_component (c : Component) :
    Condition.ofTerm (r.component c) = Condition.ofTerm c := by
  match c with
  | .token t => rw [component_token, Condition.ofTerm, Condition.ofTerm] <;> simp
  | .function name head values closing =>
      rw [component_function, Condition.ofTerm, Condition.ofTerm, r.lower_name,
        r.keysOf_respelled (r.selectors_component values)]
  | .block .round opening values closing =>
      rw [component_block, Condition.ofTerm, Condition.ofTerm, declaration?_component]
      cases Condition.declaration? values with
      | none => exact ofComponents_component values
      | some d =>
          exact congrArg Condition.test
            (r.keysOf_respelled (r.ofDeclaration_declaration d))
  | .block .square opening values closing =>
      rw [component_block, Condition.ofTerm, Condition.ofTerm] <;> simp
  | .block .curly opening values closing =>
      rw [component_block, Condition.ofTerm, Condition.ofTerm] <;> simp

theorem ofTerms_component (cs : List Component) :
    Condition.ofTerms (cs.map r.component) = Condition.ofTerms cs := by
  match cs with
  | [] => rw [List.map_nil]
  | c :: rest =>
      rw [List.map_cons, Condition.ofTerms, Condition.ofTerms, isWhitespace_component,
        isOperator_component, ofTerm_component c, ofTerms_component rest]

theorem ofComponents_component (cs : List Component) :
    Condition.ofComponents (cs.map r.component) = Condition.ofComponents cs := by
  match cs with
  | [] => rw [List.map_nil]
  | c :: rest =>
      have hjoin (terms : List Condition) := r.join_component terms (c :: rest)
      rw [List.map_cons] at hjoin
      rw [List.map_cons, Condition.ofComponents, Condition.ofComponents,
        isWhitespace_component, Condition.isNot, isWord_component,
        isOperator_component, ofTerm_component c, ofTerms_component rest,
        ofComponents_component rest, hjoin]
      rfl

end

/-! ## Uses -/

theorem isSupportRule_name (name : Text) :
    isSupportRule (r.name name) = isSupportRule name := by
  rw [isSupportRule, r.lower_name, isSupportRule]

theorem bare_respelled {fs gs : List Feature} (h : Forall₂ (Respelled r) fs gs) :
    Forall₂ (Occurrence.Respelled r) (fs.map .bare) (gs.map .bare) := by
  rw [List.forall₂_map_left_iff, List.forall₂_map_right_iff]
  exact h.imp fun _ _ hfg => ⟨hfg, rfl⟩

theorem under_respelled (prelude : List Component) {uses uses' : List Occurrence}
    (h : Forall₂ (Occurrence.Respelled r) uses uses') :
    Forall₂ (Occurrence.Respelled r) (uses.map (.under prelude))
      (uses'.map (.under (prelude.map r.component))) := by
  rw [List.forall₂_map_left_iff, List.forall₂_map_right_iff]
  refine h.imp fun o o' ho => ⟨ho.feature, ?_⟩
  rw [Occurrence.granted_under, Occurrence.granted_under, ofComponents_component,
    ho.granted]

mutual

theorem occurrences_node (n : Node) :
    Forall₂ (Occurrence.Respelled r) n.occurrences (r.node n).occurrences := by
  match n with
  | .declaration d =>
      rw [node, Node.occurrences, Node.occurrences, Node.features_declaration,
        Node.features_declaration]
      exact r.bare_respelled (r.ofDeclaration_declaration d)
  | .rule prelude block children =>
      rw [node, Node.occurrences, Node.occurrences]
      exact List.rel_append (r.bare_respelled (r.selectors_component prelude))
        (occurrencesIn_nodes children)
  | .atRule name span prelude block children =>
      rw [node, Node.occurrences, Node.occurrences, Node.features_atRule, Node.features_atRule,
        isSupportRule_name]
      refine List.rel_append
        (r.bare_respelled (r.ofAtRule_component name span prelude)) ?_
      split
      · exact r.under_respelled prelude (occurrencesIn_nodes children)
      · exact occurrencesIn_nodes children
  | .malformed values error =>
      rw [node, Node.occurrences, Node.occurrences]
      exact .nil

theorem occurrencesIn_nodes (ns : List Node) :
    Forall₂ (Occurrence.Respelled r) (Node.occurrencesIn ns)
      (Node.occurrencesIn (r.nodes ns)) := by
  match ns with
  | [] =>
      rw [nodes, Node.occurrencesIn]
      exact .nil
  | n :: rest =>
      rw [nodes, Node.occurrencesIn, Node.occurrencesIn]
      exact List.rel_append (occurrences_node n) (occurrencesIn_nodes rest)

end

end Respelling

/-! ## Diagnostics -/

/-- A diagnostic in the place that a respelling gives it. -/
def Diagnostic.moved (r : Respelling) (d : Diagnostic) : Diagnostic :=
  { d with span := r.span d.span }

/-- A use with what is around it, and the same use in the place that a respelling
gives it. -/
structure Occurrence.Moved (r : Respelling) (o o' : Occurrence) : Prop where
  feature : o'.feature = { o.feature with span := r.span o.feature.span }
  granted : o'.granted = o.granted

theorem Occurrence.Respelled.moved {r : Respelling} {o o' : Occurrence}
    (h : o.Respelled r o') (hname : ∀ t, r.name t = t)
    (hspan : o'.feature.span = r.span o.feature.span) : o.Moved r o' := by
  refine ⟨?_, h.granted⟩
  have hdetails := h.feature.details
  rw [r.details_eq hname] at hdetails
  dsimp only
  rw [← hspan, ← h.feature.kind, ← h.feature.key, ← hdetails]

/-- What is moved is reported where it is moved to. -/
theorem Audit.reports_moved (a : Audit) {r : Respelling} {uses uses' : List Occurrence}
    (h : List.Forall₂ (Occurrence.Moved r) uses uses') :
    a.reports [] uses' = (a.reports [] uses).map (Diagnostic.moved r) := by
  unfold reports
  induction h with
  | nil => rfl
  | @cons o o' uses uses' ho _ ih =>
      have hoffends : a.Offends o'.feature ([] ++ o'.granted) ↔
          a.Offends o.feature ([] ++ o.granted) := by
        rw [ho.feature, ho.granted]
        exact Iff.rfl
      by_cases h : a.Offends o.feature ([] ++ o.granted)
      · rw [List.filter_cons_of_pos (by simpa using hoffends.2 h),
          List.filter_cons_of_pos (by simpa using h), List.map_cons, List.map_cons,
          List.map_cons, ih, ho.feature]
        rfl
      · rw [List.filter_cons_of_neg (by simpa using mt hoffends.1 h),
          List.filter_cons_of_neg (by simpa using h), ih]

end StyleAudit
