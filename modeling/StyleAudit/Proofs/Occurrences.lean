import StyleAudit.Proofs.FeatureForm

/-!
# A walk reports the offending uses of features, in order

The walk carries a stack of scopes and a list of events through the visitors of
a tree. What it comes to can be said without either. A tree uses features: those
of a node itself, then those of its children. Around each use stand the support
rules that enclose it, and together their conditions grant some keys there. A
use offends if no list allows it, its key is not granted, and there is a record
of it that misses the threshold. The diagnostics are the offending uses, in
order.

`Node.occurrences` collects the uses from the leaves up: a support rule adds its
prelude to the uses inside it, and nothing is ever taken off again. That this is
what the stack does is the content of `visit_continues`: a visit leaves the
scope as it found it, and what it reports depends on the scope through the
granted keys alone.
-/

namespace StyleAudit

/-! ## Uses of features -/

/-- A use of a feature, and the preludes of the support rules around it, the
outermost first. -/
structure Occurrence where
  feature : Feature
  guards : List (List Component)

namespace Occurrence

/-- A use with no support rule around it. -/
def bare (f : Feature) : Occurrence := ⟨f, []⟩

@[simp] theorem bare_feature (f : Feature) : (bare f).feature = f := rfl

/-- A use inside one more support rule. -/
def under (prelude : List Component) (o : Occurrence) : Occurrence :=
  ⟨o.feature, prelude :: o.guards⟩

@[simp] theorem under_feature (prelude : List Component) (o : Occurrence) :
    (o.under prelude).feature = o.feature := rfl

/-- The keys that the conditions around a use grant, all together. -/
def granted (o : Occurrence) : List Feature.Key :=
  o.guards.flatMap fun prelude => (Condition.ofComponents prelude).asserted

@[simp] theorem granted_bare (f : Feature) : (bare f).granted = [] := rfl

theorem granted_under (prelude : List Component) (o : Occurrence) :
    (o.under prelude).granted =
      (Condition.ofComponents prelude).asserted ++ o.granted := by
  rw [granted, under, List.flatMap_cons, granted]

end Occurrence

namespace Node

/-- The features of a node itself. A declaration has its property, and for each
component of its value the keyword it is and the functions in it; a rule has
those of its selectors; an at-rule has its name and, if it holds media queries,
the conditions in them; a malformed piece has none. -/
def features : Node → List Feature
  | declaration d =>
      if isCustomProperty d.name || Feature.isVendorPrefixed d.name then []
      else
        ⟨.property, Text.lower d.name, d.span, [("property", .ofText d.name)]⟩ ::
          d.values.flatMap fun c =>
            (Feature.keyword? d.name c).toList ++
              c.parts.filterMap Feature.function?
  | rule prelude _ _ => Feature.selectors prelude
  | atRule name span prelude _ _ =>
      if Feature.isVendorPrefixed name then []
      else
        ⟨.atRule, Text.lower name, span, [("atRule", .ofText name)]⟩ ::
          if Text.lower name ∈ ["media".toList, "import".toList] then
            Feature.mediaConditions (Feature.mediaQueries prelude)
          else []
  | malformed _ _ => []

theorem features_declaration (d : Declaration) :
    (declaration d).features = Feature.ofDeclaration d := by
  rw [features, Feature.ofDeclaration]
  simp only [← Feature.ofValue_eq_parts]

theorem features_atRule (name : Text) (span : Span) (prelude : List Component)
    (block : Option Block) (children : List Node) :
    (atRule name span prelude block children).features = Feature.ofAtRule name span prelude := by
  rw [features, Feature.ofAtRule, Feature.ofAtRule?]
  split
  · rfl
  · simp

mutual

/-- The uses of features in a node, in source order. -/
def occurrences : Node → List Occurrence
  | declaration d => (declaration d).features.map .bare
  | rule prelude block children =>
      (rule prelude block children).features.map .bare ++ occurrencesIn children
  | atRule name span prelude block children =>
      (atRule name span prelude block children).features.map .bare ++
        if isSupportRule name then (occurrencesIn children).map (.under prelude)
        else occurrencesIn children
  | malformed _ _ => []

/-- The uses of features in some nodes, in source order. -/
def occurrencesIn : List Node → List Occurrence
  | [] => []
  | n :: rest => occurrences n ++ occurrencesIn rest

end

theorem occurrencesIn_append (nodes more : List Node) :
    occurrencesIn (nodes ++ more) = occurrencesIn nodes ++ occurrencesIn more := by
  induction nodes with
  | nil => rw [List.nil_append, occurrencesIn, List.nil_append]
  | cons n nodes ih =>
      rw [List.cons_append, occurrencesIn, occurrencesIn, ih, List.append_assoc]

/-- All features of a node are made by resolvers. -/
theorem resolved_of_mem_features {n : Node} {f : Feature} (hf : f ∈ n.features) :
    f.Resolved := by
  cases n with
  | declaration d =>
      rw [features_declaration] at hf
      exact .declaration d hf
  | rule prelude block children => exact .selector prelude hf
  | atRule name span prelude block children =>
      rw [features_atRule, Feature.ofAtRule] at hf
      split at hf
      · cases hf
      · next g hg =>
          rcases List.mem_cons.1 hf with rfl | hf
          · exact .atRule name span hg
          · split at hf
            · exact .media _ hf
            · cases hf
  | malformed values error => cases hf

theorem form_of_mem_features {n : Node} {f : Feature} (hf : f ∈ n.features) :
    f.Form :=
  (resolved_of_mem_features hf).form

mutual

/-- A node and all nodes in its block, in source order. -/
def within : Node → List Node
  | declaration d => [declaration d]
  | rule prelude block children => rule prelude block children :: withinAll children
  | atRule name span prelude block children =>
      atRule name span prelude block children :: withinAll children
  | malformed values error => [malformed values error]

/-- Some nodes and all nodes in their blocks, in source order. -/
def withinAll : List Node → List Node
  | [] => []
  | n :: rest => within n ++ withinAll rest

end

theorem not_mem_withinAll_nil {n : Node} : n ∉ withinAll [] := by
  rw [withinAll]
  exact List.not_mem_nil

theorem withinAll_append (nodes more : List Node) :
    withinAll (nodes ++ more) = withinAll nodes ++ withinAll more := by
  induction nodes with
  | nil => rw [List.nil_append, withinAll, List.nil_append]
  | cons n nodes ih => rw [List.cons_append, withinAll, ih, withinAll, List.append_assoc]

theorem mem_within_self (n : Node) : n ∈ n.within := by
  cases n <;> simp [within]

theorem mem_within_of_mem_bare {n : Node} {o : Occurrence}
    (ho : o ∈ n.features.map .bare) : ∃ m ∈ n.within, o.feature ∈ m.features := by
  obtain ⟨f, hf, rfl⟩ := List.mem_map.1 ho
  exact ⟨n, n.mem_within_self, hf⟩

mutual

theorem mem_within_of_mem_occurrences {n : Node} {o : Occurrence}
    (ho : o ∈ n.occurrences) : ∃ m ∈ n.within, o.feature ∈ m.features := by
  match n with
  | .declaration d =>
      rw [occurrences] at ho
      exact mem_within_of_mem_bare ho
  | .rule prelude block children =>
      rw [occurrences, List.mem_append] at ho
      rcases ho with hself | hinner
      · exact mem_within_of_mem_bare hself
      · obtain ⟨m, hm, hfeature⟩ := mem_within_of_mem_occurrencesIn hinner
        rw [within]
        exact ⟨m, List.mem_cons_of_mem _ hm, hfeature⟩
  | .atRule name span prelude block children =>
      rw [occurrences, List.mem_append] at ho
      rcases ho with hself | hinner
      · exact mem_within_of_mem_bare hself
      · obtain ⟨m, hm, hfeature⟩ : ∃ m ∈ withinAll children, o.feature ∈ m.features := by
          split at hinner
          · obtain ⟨inner, hmem, rfl⟩ := List.mem_map.1 hinner
            rw [Occurrence.under_feature]
            exact mem_within_of_mem_occurrencesIn hmem
          · exact mem_within_of_mem_occurrencesIn hinner
        rw [within]
        exact ⟨m, List.mem_cons_of_mem _ hm, hfeature⟩
  | .malformed values error =>
      rw [occurrences] at ho
      cases ho

/-- Each use of a feature in some nodes is one of a node among or in them. -/
theorem mem_within_of_mem_occurrencesIn {nodes : List Node} {o : Occurrence}
    (ho : o ∈ occurrencesIn nodes) : ∃ m ∈ withinAll nodes, o.feature ∈ m.features := by
  match nodes with
  | [] =>
      rw [occurrencesIn] at ho
      cases ho
  | n :: rest =>
      rw [occurrencesIn, List.mem_append] at ho
      rw [withinAll]
      rcases ho with hn | hrest
      · obtain ⟨m, hm, hfeature⟩ := mem_within_of_mem_occurrences hn
        exact ⟨m, List.mem_append_left _ hm, hfeature⟩
      · obtain ⟨m, hm, hfeature⟩ := mem_within_of_mem_occurrencesIn hrest
        exact ⟨m, List.mem_append_right _ hm, hfeature⟩

end

/-- Each use of a feature is one of some node. -/
theorem exists_of_mem_occurrencesIn {nodes : List Node} {o : Occurrence}
    (ho : o ∈ occurrencesIn nodes) : ∃ n : Node, o.feature ∈ n.features := by
  obtain ⟨n, -, hn⟩ := mem_within_of_mem_occurrencesIn ho
  exact ⟨n, hn⟩

theorem form_of_mem_occurrencesIn {nodes : List Node} {o : Occurrence}
    (ho : o ∈ occurrencesIn nodes) : o.feature.Form := by
  obtain ⟨n, hn⟩ := exists_of_mem_occurrencesIn ho
  exact form_of_mem_features hn

end Node

/-! ## Offending uses -/

namespace Configuration

/-- Whether an allow-list names a feature: the property it belongs to as it was
written, an at-rule in letters of any case, or a selector by its key. -/
def Exempt (c : Configuration) (f : Feature) : Prop :=
  match f.kind with
  | .property | .propertyValue =>
      ∃ name ∈ c.allowProperties,
        Dictionary.get? "property" f.details = some (.ofText name)
  | .atRule => ∃ name ∈ c.allowAtRules, Text.lower name = f.key
  | .selector => f.key ∈ c.allowSelectors
  | .function | .mediaCondition => False

/-- The look-up of the name of a property, read as a fact about the list. -/
theorem allowsProperty_iff (c : Configuration) (details : Details) :
    (match (match Dictionary.get? "property" details with
        | some name => c.allowsProperty name
        | none => .error .missing) with
      | .ok b => b
      | .error _ => false) = true ↔
      ∃ name ∈ c.allowProperties,
        Dictionary.get? "property" details = some (.ofText name) := by
  cases Dictionary.get? "property" details with
  | none => simp
  | some json =>
      cases json with
      | str s =>
          constructor
          · intro h
            refine ⟨s.toList, by simpa [allowsProperty] using h, ?_⟩
            rw [Json.ofText, String.ofList_toList]
          · rintro ⟨name, hname, heq⟩
            simp only [Json.ofText, Option.some.injEq, Json.str.injEq] at heq
            simpa [allowsProperty, heq] using hname
      | _ => simp [allowsProperty, Json.ofText]

theorem exempts_iff (c : Configuration) (f : Feature) :
    c.exempts f = true ↔ c.Exempt f := by
  unfold exempts exempts? Exempt
  cases f.kind with
  | property => exact c.allowsProperty_iff f.details
  | propertyValue => exact c.allowsProperty_iff f.details
  | atRule => simp
  | selector => simp
  | function => simp
  | mediaCondition => simp

instance (c : Configuration) (f : Feature) : Decidable (c.Exempt f) :=
  decidable_of_iff _ (c.exempts_iff f)

end Configuration

namespace Audit

/-- Whether a use of a feature offends where some keys are granted. -/
def Offends (a : Audit) (f : Feature) (granted : List Feature.Key) : Prop :=
  ¬ a.configuration.Exempt f ∧ f.scopeKey ∉ granted ∧
    ∃ r, a.database.get? f.kind f.key = some r ∧
      a.configuration.available.isMetBy r = false

theorem not_supports_iff (t : Threshold) (d : Database) (kind : Feature.Kind)
    (key : Text) : t.supports d kind key = false ↔
      ∃ r, d.get? kind key = some r ∧ t.isMetBy r = false := by
  unfold Threshold.supports
  cases d.get? kind key with
  | none => simp
  | some r => simp

instance (a : Audit) (f : Feature) (granted : List Feature.Key) :
    Decidable (a.Offends f granted) :=
  inferInstanceAs (Decidable (_ ∧ _ ∧ _))

/-- The diagnostics of the offending uses among some, where some keys are
granted already. -/
def reports (a : Audit) (granted : List Feature.Key) (uses : List Occurrence) :
    List Diagnostic :=
  (uses.filter fun o => a.Offends o.feature (granted ++ o.granted)).map
    fun o => .ofFeature o.feature a.configuration.available.toJson

theorem reports_append (a : Audit) (granted : List Feature.Key)
    (uses more : List Occurrence) :
    a.reports granted (uses ++ more) =
      a.reports granted uses ++ a.reports granted more := by
  rw [reports, List.filter_append, List.map_append, reports, reports]

theorem reports_bare (a : Audit) (granted : List Feature.Key) (f : Feature) :
    a.reports granted [.bare f] =
      if a.Offends f granted then
        [.ofFeature f a.configuration.available.toJson]
      else [] := by
  rw [reports, List.filter_cons, List.filter_nil, Occurrence.granted_bare,
    Occurrence.bare_feature, List.append_nil]
  by_cases h : a.Offends f granted
  · rw [if_pos h, if_pos (decide_eq_true h)]
    rfl
  · rw [if_neg h, if_neg (by simpa using h)]
    rfl

/-- A support rule around some uses grants what its condition asserts. -/
theorem reports_under (a : Audit) (granted : List Feature.Key)
    (prelude : List Component) (uses : List Occurrence) :
    a.reports granted (uses.map (.under prelude)) =
      a.reports (granted ++ (Condition.ofComponents prelude).asserted) uses := by
  unfold reports
  rw [List.filter_map, List.map_map]
  simp only [Function.comp_def, Occurrence.granted_under, List.append_assoc]
  rfl

/-! ## The walk -/

/-- What was reported on a walk so far. -/
def reported (w : Walk) : List Diagnostic := w.events.filterMap Event.diagnostic?

/-- One walk goes on from another over some uses of features: it ends in the
scope it started in, and has reported just the offending ones besides. -/
def Continues (a : Audit) (w : Walk) (uses : List Occurrence) (w' : Walk) : Prop :=
  w'.scope = w.scope ∧
    reported w' = reported w ++ a.reports w.scope.keys uses

theorem Continues.refl (a : Audit) (w : Walk) : a.Continues w [] w :=
  ⟨rfl, (List.append_nil _).symm⟩

theorem Continues.trans {a : Audit} {w w' w'' : Walk}
    {uses more : List Occurrence} (h : a.Continues w uses w')
    (h' : a.Continues w' more w'') : a.Continues w (uses ++ more) w'' := by
  refine ⟨h'.1.trans h.1, ?_⟩
  rw [h'.2, h.2, h.1, reports_append, List.append_assoc]

theorem reported_note (w : Walk) (e : Event) :
    reported (w.note e) = reported w ++ e.diagnostic?.toList := by
  rw [reported, Walk.note, List.filterMap_append, reported]
  cases e <;> rfl

theorem check_eq (a : Audit) (w : Walk) (f : Feature) :
    a.check w f =
      if a.Offends f w.scope.keys then
        w.note (.reported (.ofFeature f a.configuration.available.toJson))
      else w := by
  unfold check
  split
  · next hexempt =>
      rw [if_neg]
      exact fun h => h.1 ((a.configuration.exempts_iff f).1 hexempt)
  · next hexempt =>
      split
      · next hallows =>
          rw [if_neg]
          exact fun h => h.2.1 (List.contains_iff_mem.1 hallows)
      · next hallows =>
          split
          · next hsupports =>
              rw [if_neg]
              intro h
              rw [(not_supports_iff _ _ _ _).2 h.2.2] at hsupports
              cases hsupports
          · next hsupports =>
              rw [if_pos]
              refine ⟨?_, ?_, ?_⟩
              · exact fun h => hexempt ((a.configuration.exempts_iff f).2 h)
              · exact fun h => hallows (List.contains_iff_mem.2 h)
              · exact (not_supports_iff _ _ _ _).1
                  (Bool.eq_false_iff.2 hsupports)

theorem check_continues (a : Audit) (w : Walk) (f : Feature) :
    a.Continues w [.bare f] (a.check w f) := by
  rw [Continues, check_eq, reports_bare]
  split
  · exact ⟨rfl, reported_note _ _⟩
  · exact ⟨rfl, (List.append_nil _).symm⟩

/-- What is walked inside a support rule is walked with its keys granted, and
leaving the rule restores the scope around it. -/
theorem Continues.enclosed {a : Audit} {w w' : Walk} {uses : List Occurrence}
    {position : Position} {prelude : List Component}
    (h : a.Continues
      (w.enter position (Condition.ofComponents prelude).asserted) uses w') :
    a.Continues w (uses.map (.under prelude)) w'.leave := by
  obtain ⟨hscope, hreported⟩ := h
  refine ⟨?_, ?_⟩
  · rw [Walk.leave, hscope]
    rfl
  · have henter : reported (w.enter position
        (Condition.ofComponents prelude).asserted) = reported w := by
      rw [Walk.enter, reported_note]
      exact List.append_nil _
    rw [reports_under, ← henter]
    exact hreported

theorem checkAll_continues (a : Audit) (w : Walk) (features : List Feature) :
    a.Continues w (features.map .bare) (a.checkAll w features) := by
  induction features generalizing w with
  | nil => exact .refl a w
  | cons f rest ih => exact (a.check_continues w f).trans (ih (a.check w f))

mutual

theorem visit_continues (a : Audit) (w : Walk) (n : Node) :
    a.Continues w n.occurrences (a.visit w n) := by
  match n with
  | .declaration d =>
      rw [Node.occurrences, Node.features_declaration, visit]
      exact a.checkAll_continues w _
  | .rule prelude block children =>
      rw [Node.occurrences, visit]
      exact (a.checkAll_continues w _).trans (a.visitAll_continues _ children)
  | .atRule name span prelude block children =>
      rw [Node.occurrences, Node.features_atRule, visit]
      refine (a.checkAll_continues w _).trans ?_
      split
      · exact (a.visitAll_continues _ children).enclosed
      · exact a.visitAll_continues _ children
  | .malformed values error =>
      rw [Node.occurrences, visit]
      exact ⟨rfl, reported_note w (.skipped error)⟩

theorem visitAll_continues (a : Audit) (w : Walk) (nodes : List Node) :
    a.Continues w (Node.occurrencesIn nodes) (a.visitAll w nodes) := by
  match nodes with
  | [] =>
      rw [Node.occurrencesIn, visitAll]
      exact .refl a w
  | n :: rest =>
      rw [Node.occurrencesIn, visitAll]
      exact (a.visit_continues w n).trans (a.visitAll_continues _ rest)

end

/-- What a walk of a whole stylesheet comes to. -/
theorem diagnostics_eq_reports (a : Audit) (sheet : Stylesheet) :
    a.diagnostics sheet = a.reports [] (Node.occurrencesIn sheet.rules) :=
  (a.visitAll_continues .start sheet.rules).2

/-- Whether an allow-list names a feature of a stylesheet can always be told. -/
theorem exempts?_of_form (c : Configuration) {f : Feature} (hf : f.Form) :
    ∃ b, c.exempts? f = .ok b := by
  cases hf <;> exact ⟨_, rfl⟩

/-- The details of a feature say nothing of the availability asked for, which a
diagnostic adds behind them. -/
theorem data_of_form {f : Feature} (hf : f.Form) (availability : Json) :
    (Diagnostic.ofFeature f availability).data =
      f.details ++ [("availability", availability)] := by
  cases hf <;> rfl

/-- The diagnostics of a stylesheet are those of the offending uses of features,
in source order and one each. None of the look-ups that decide about a use can
fail, and its diagnostic carries the feature's details and the availability. -/
theorem diagnostics_eq_offending (a : Audit) (sheet : Stylesheet) :
    a.diagnostics sheet =
      ((Node.occurrencesIn sheet.rules).filter fun o =>
        a.Offends o.feature o.granted).map
          (fun o => ⟨o.feature.kind, o.feature.details,
            a.configuration.available.toJson, o.feature.span⟩) ∧
    ∀ o ∈ Node.occurrencesIn sheet.rules,
      (∃ b, a.configuration.exempts? o.feature = .ok b) ∧
      ∀ availability, (Diagnostic.ofFeature o.feature availability).data =
        o.feature.details ++ [("availability", availability)] := by
  refine ⟨a.diagnostics_eq_reports sheet, fun o ho => ?_⟩
  have hform := Node.form_of_mem_occurrencesIn ho
  exact ⟨exempts?_of_form a.configuration hform, data_of_form hform⟩

end Audit

end StyleAudit
