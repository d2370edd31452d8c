import StyleAudit.Proofs.SelfGuard

/-!
# More support never adds a diagnostic

Three things decide whether a use of a feature offends: the lists of allowed
names, the keys that are granted around it, and the threshold. Each of them can
only be asked for a way out, and a way out that is there stays there when the
list, the keys or the threshold become more generous. So of two audits over the
same uses, the more generous one keeps some of the findings of the other, in the
same order.

The availability that was asked for is part of a diagnostic, and it is the one
thing in it that does not come from the stylesheet. Where thresholds differ,
diagnostics are compared by what is left without it, their `finding`.

A support rule around some nodes grants them more and changes nothing else: the
scope outside is restored behind it. It is itself a use of a feature, though,
and that is the only finding it can add.
-/

namespace StyleAudit

open scoped List

/-! ## Findings -/

namespace Diagnostic

/-- What a diagnostic says of the stylesheet: kind, place and data, but not the
availability that was asked for. -/
def finding (d : Diagnostic) : Feature.Kind × Span × Details :=
  (d.kind, d.span, d.data.filter fun p => p.1 ≠ "availability")

theorem filter_put_availability (details : Details) (availability : Json) :
    (Dictionary.put "availability" availability details).filter
        (fun p => p.1 ≠ "availability") =
      details.filter fun p => p.1 ≠ "availability" := by
  induction details with
  | nil => rfl
  | cons p rest ih =>
      obtain ⟨word, value⟩ := p
      rw [Dictionary.put]
      split
      · next hword =>
          subst hword
          rfl
      · rw [List.filter_cons, List.filter_cons, ih]

theorem finding_ofFeature (f : Feature) (availability other : Json) :
    (ofFeature f availability).finding = (ofFeature f other).finding := by
  unfold finding data ofFeature
  rw [filter_put_availability, filter_put_availability]

end Diagnostic

namespace Audit

variable {a a' : Audit} {granted granted' : List Feature.Key}

/-- What an audit finds in a stylesheet, in order. -/
def findings (a : Audit) (sheet : Stylesheet) :
    List (Feature.Kind × Span × Details) :=
  (a.diagnostics sheet).map Diagnostic.finding

/-! ## Ways out -/

/-- One audit is at least as generous as another: it goes by the same data,
allows all names that the other allows, and accepts all records that the other
accepts. -/
structure Generous (a a' : Audit) : Prop where
  database : a'.database = a.database
  properties : a.configuration.allowProperties ⊆ a'.configuration.allowProperties
  atRules : a.configuration.allowAtRules ⊆ a'.configuration.allowAtRules
  selectors : a.configuration.allowSelectors ⊆ a'.configuration.allowSelectors
  available : ∀ r, a.configuration.available.isMetBy r = true →
    a'.configuration.available.isMetBy r = true

theorem Generous.refl (a : Audit) : a.Generous a :=
  ⟨rfl, List.Subset.refl _, List.Subset.refl _, List.Subset.refl _, fun _ h => h⟩

theorem Generous.exempt (h : a.Generous a') {f : Feature}
    (hf : a.configuration.Exempt f) : a'.configuration.Exempt f := by
  unfold Configuration.Exempt at hf ⊢
  split at hf
  · obtain ⟨name, hname, hdetails⟩ := hf
    exact ⟨name, h.properties hname, hdetails⟩
  · obtain ⟨name, hname, hdetails⟩ := hf
    exact ⟨name, h.properties hname, hdetails⟩
  · obtain ⟨name, hname, hkey⟩ := hf
    exact ⟨name, h.atRules hname, hkey⟩
  · exact h.selectors hf
  · exact hf
  · exact hf

/-- What offends the more generous audit, with more keys granted, offends the
other one. -/
theorem Generous.offends (h : a.Generous a') (hgranted : granted ⊆ granted')
    {f : Feature} (hf : a'.Offends f granted') : a.Offends f granted := by
  obtain ⟨hexempt, hkey, r, hr, hmet⟩ := hf
  refine ⟨fun hx => hexempt (h.exempt hx), fun hk => hkey (hgranted hk), r, ?_, ?_⟩
  · rw [← h.database]
    exact hr
  · rw [Bool.eq_false_iff] at hmet ⊢
    exact fun hx => hmet (h.available r hx)

theorem Generous.filter_sublist (h : a.Generous a') (hgranted : granted ⊆ granted')
    (uses : List Occurrence) :
    (uses.filter fun o => a'.Offends o.feature (granted' ++ o.granted)) <+
      uses.filter fun o => a.Offends o.feature (granted ++ o.granted) := by
  refine List.monotone_filter_right uses fun o ho => ?_
  rw [decide_eq_true_eq] at ho ⊢
  refine h.offends ?_ ho
  exact List.append_subset.2 ⟨List.subset_append_of_subset_left _ hgranted,
    List.subset_append_right _ _⟩

/-- With one threshold the diagnostics themselves are kept. -/
theorem Generous.reports_sublist (h : a.Generous a')
    (havailable : a'.configuration.available = a.configuration.available)
    (hgranted : granted ⊆ granted') (uses : List Occurrence) :
    a'.reports granted' uses <+ a.reports granted uses := by
  unfold reports
  rw [havailable]
  exact (h.filter_sublist hgranted uses).map _

theorem Generous.findings_sublist (h : a.Generous a') (sheet : Stylesheet) :
    a'.findings sheet <+ a.findings sheet := by
  have hmap (o : Occurrence) : Diagnostic.finding
        (.ofFeature o.feature a'.configuration.available.toJson) =
      Diagnostic.finding (.ofFeature o.feature a.configuration.available.toJson) :=
    Diagnostic.finding_ofFeature _ _ _
  unfold findings
  rw [diagnostics_eq_reports, diagnostics_eq_reports, reports, reports,
    List.map_map, List.map_map]
  simp only [Function.comp_def, hmap]
  exact (h.filter_sublist (List.Subset.refl _) _).map _

/-- More granted keys are the one thing that a scope can do to a walk. -/
theorem reports_sublist_of_granted (a : Audit) (hgranted : granted ⊆ granted')
    (uses : List Occurrence) : a.reports granted' uses <+ a.reports granted uses :=
  (Generous.refl a).reports_sublist rfl hgranted uses

/-! ## Thresholds -/

theorem generous_year (c : Configuration) (db : Database) {y y' : Int}
    (h : y ≤ y') :
    Generous ⟨{ c with available := .year y }, db⟩
      ⟨{ c with available := .year y' }, db⟩ := by
  refine ⟨rfl, List.Subset.refl _, List.Subset.refl _, List.Subset.refl _, ?_⟩
  intro r hr
  simp only [Threshold.isMetBy, Option.any_eq_true, decide_eq_true_eq] at hr ⊢
  obtain ⟨since, hsince, hle⟩ := hr
  exact ⟨since, hsince, by omega⟩

theorem generous_newly (c : Configuration) (db : Database) :
    Generous ⟨{ c with available := .widely }, db⟩
      ⟨{ c with available := .newly }, db⟩ := by
  refine ⟨rfl, List.Subset.refl _, List.Subset.refl _, List.Subset.refl _, ?_⟩
  intro r hr
  simp only [Threshold.isMetBy, Bool.or_eq_true, decide_eq_true_eq] at hr ⊢
  exact Or.inr hr

/-! ## Scopes -/

theorem reported_visitAll (a : Audit) (s : Scope) (nodes : List Node) :
    reported (a.visitAll ⟨s, []⟩ nodes) =
      a.reports s.keys (Node.occurrencesIn nodes) :=
  (a.visitAll_continues ⟨s, []⟩ nodes).2

/-- Diagnostics that are some of others once `own` is taken out. -/
def Adds (own wrapped plain : List Diagnostic) : Prop :=
  ∃ before after, wrapped = before ++ (own ++ after) ∧ before ++ after <+ plain

theorem Adds.surround {own wrapped plain : List Diagnostic}
    (h : Adds own wrapped plain) (left right : List Diagnostic) :
    Adds own (left ++ (wrapped ++ right)) (left ++ (plain ++ right)) := by
  obtain ⟨before, after, rfl, hsublist⟩ := h
  refine ⟨left ++ before, after ++ right, ?_, ?_⟩
  · simp only [List.append_assoc]
  · have := (hsublist.append_right right).append_left left
    simpa only [List.append_assoc] using this

/-- A support rule is no use of any feature but itself. -/
theorem ofAtRule_of_isSupportRule {name : Text} (h : isSupportRule name = true)
    (span : Span) (prelude : List Component) :
    Feature.ofAtRule name span prelude =
      [⟨.atRule, Text.lower name, span, [("atRule", .ofText name)]⟩] := by
  have hname : Text.lower name = "supports".toList := of_decide_eq_true h
  have hvendor : Feature.isVendorPrefixed name = false := by
    rw [Feature.isVendorPrefixed, hname]
    decide
  have hfeature : Feature.ofAtRule? name span =
      some ⟨.atRule, Text.lower name, span, [("atRule", .ofText name)]⟩ := by
    rw [Feature.ofAtRule?, hvendor]
    rfl
  rw [Feature.ofAtRule, hfeature]
  show _ :: (if (Text.lower name = "media".toList ||
    Text.lower name = "import".toList) = true then _ else _) = _
  rw [hname, if_neg (by decide)]

/-- The diagnostic about the name of an at-rule. -/
def aboutRule (a : Audit) (name : Text) (span : Span) : Diagnostic :=
  ⟨.atRule, [("atRule", .ofText name)], a.configuration.available.toJson, span⟩

theorem reports_bare_sublist (a : Audit) (granted : List Feature.Key) (f : Feature) :
    a.reports granted [.bare f] <+
      [.ofFeature f a.configuration.available.toJson] := by
  rw [reports_bare]
  split
  · exact .refl _
  · exact List.nil_sublist _

/-- What an at-rule does to the nodes in it does not depend on them. -/
theorem reports_children (a : Audit) (granted : List Feature.Key) (name : Text)
    (span : Span) (prelude : List Component) (block : Option Block) :
    ∃ inner, ∀ children,
      a.reports granted (Node.atRule name span prelude block children).occurrences =
        a.reports granted ((Feature.ofAtRule name span prelude).map .bare) ++
          a.reports inner (Node.occurrencesIn children) := by
  by_cases hname : isSupportRule name = true
  · refine ⟨granted ++ (Condition.ofComponents prelude).asserted, fun children => ?_⟩
    rw [Node.occurrences, if_pos hname, reports_append, reports_under, Node.features_atRule]
  · refine ⟨granted, fun children => ?_⟩
    rw [Node.occurrences, if_neg hname, reports_append, Node.features_atRule]

/-- Around some nodes a support rule adds at most the diagnostic about itself. -/
theorem reports_support_rule (a : Audit) {name : Text}
    (hname : isSupportRule name = true) (span : Span) (prelude : List Component)
    (block : Option Block) (nodes : List Node) (granted : List Feature.Key) :
    ∃ own, own <+ [a.aboutRule name span] ∧
      Adds own (a.reports granted (Node.atRule name span prelude block nodes).occurrences)
        (a.reports granted (Node.occurrencesIn nodes)) := by
  have hinside := a.reports_sublist_of_granted
    (List.subset_append_left granted (Condition.ofComponents prelude).asserted)
    (Node.occurrencesIn nodes)
  refine ⟨_, a.reports_bare_sublist granted ⟨.atRule, Text.lower name, span,
    [("atRule", .ofText name)]⟩, [], _, ?_, hinside⟩
  rw [Node.occurrences, if_pos hname, Node.features_atRule, ofAtRule_of_isSupportRule hname,
    reports_append, reports_under]
  rfl

/-- Nodes inside one more support rule, at any depth of a tree: what is reported
besides the rule was reported without it. -/
theorem reports_wrapped (a : Audit) {name : Text} (hname : isSupportRule name = true)
    (span : Span) (prelude : List Component) (block : Option Block)
    (nodes : List Node) (gap : Gap) (granted : List Feature.Key) :
    ∃ own, own <+ [a.aboutRule name span] ∧
      Adds own
        (a.reports granted (Node.occurrencesIn
          (gap.fill [.atRule name span prelude block nodes])))
        (a.reports granted (Node.occurrencesIn (gap.fill nodes))) := by
  induction gap generalizing granted with
  | here before after =>
      obtain ⟨own, hown, hadds⟩ :=
        a.reports_support_rule hname span prelude block nodes granted
      refine ⟨own, hown, ?_⟩
      have h := hadds.surround (a.reports granted (Node.occurrencesIn before))
        (a.reports granted (Node.occurrencesIn after))
      simpa only [Gap.fill, Node.occurrencesIn_append, Node.occurrencesIn,
        reports_append, List.append_assoc, List.append_nil] using h
  | inRule before rulePrelude ruleBlock gap after ih =>
      obtain ⟨own, hown, hadds⟩ := ih granted
      refine ⟨own, hown, ?_⟩
      have h := hadds.surround
        (a.reports granted (Node.occurrencesIn before) ++
          a.reports granted ((Feature.selectors rulePrelude).map .bare))
        (a.reports granted (Node.occurrencesIn after))
      simpa only [Gap.fill, Node.occurrencesIn_append, Node.occurrencesIn,
        Node.occurrences, Node.features, reports_append, List.append_assoc] using h
  | inAtRule before ruleName ruleSpan rulePrelude ruleBlock gap after ih =>
      obtain ⟨inner, hinner⟩ :=
        a.reports_children granted ruleName ruleSpan rulePrelude ruleBlock
      obtain ⟨own, hown, hadds⟩ := ih inner
      refine ⟨own, hown, ?_⟩
      have h := hadds.surround
        (a.reports granted (Node.occurrencesIn before) ++ a.reports granted
          ((Feature.ofAtRule ruleName ruleSpan rulePrelude).map .bare))
        (a.reports granted (Node.occurrencesIn after))
      simpa only [Gap.fill, Node.occurrencesIn_append, Node.occurrencesIn,
        reports_append, hinner, List.append_assoc] using h

/-- An audit finds less, and nothing new, if names are added to the lists of
allowed names, if a later year or the lower level is asked for, or if more keys
are granted around the nodes it walks. So one more support rule around some
nodes, wherever they stand, adds at most the diagnostic about its own name. -/
theorem support_never_adds :
    (∀ (c c' : Configuration) (db : Database) (sheet : Stylesheet),
      c'.available = c.available → c.allowProperties ⊆ c'.allowProperties →
      c.allowAtRules ⊆ c'.allowAtRules → c.allowSelectors ⊆ c'.allowSelectors →
      diagnostics ⟨c', db⟩ sheet <+ diagnostics ⟨c, db⟩ sheet) ∧
    (∀ (c : Configuration) (db : Database) (sheet : Stylesheet) (y y' : Int),
      y ≤ y' → findings ⟨{ c with available := .year y' }, db⟩ sheet <+
        findings ⟨{ c with available := .year y }, db⟩ sheet) ∧
    (∀ (c : Configuration) (db : Database) (sheet : Stylesheet),
      findings ⟨{ c with available := .newly }, db⟩ sheet <+
        findings ⟨{ c with available := .widely }, db⟩ sheet) ∧
    (∀ (a : Audit) (nodes : List Node) (s s' : Scope), s.keys ⊆ s'.keys →
      reported (a.visitAll ⟨s', []⟩ nodes) <+
        reported (a.visitAll ⟨s, []⟩ nodes)) ∧
    ∀ (a : Audit) (gap : Gap) (nodes : List Node) (name : Text) (span : Span)
      (prelude : List Component) (block : Option Block)
      (errors : List SyntaxError), isSupportRule name = true →
      ∃ own, own <+ [a.aboutRule name span] ∧
        Adds own
          (a.diagnostics ⟨gap.fill [.atRule name span prelude block nodes], errors⟩)
          (a.diagnostics ⟨gap.fill nodes, errors⟩) := by
  refine ⟨?_, ?_, ?_, ?_, ?_⟩
  · intro c c' db sheet havailable hproperties hatRules hselectors
    have hgenerous : Generous ⟨c, db⟩ ⟨c', db⟩ :=
      ⟨rfl, hproperties, hatRules, hselectors, fun r hr => havailable ▸ hr⟩
    rw [diagnostics_eq_reports, diagnostics_eq_reports]
    exact hgenerous.reports_sublist havailable (List.Subset.refl _) _
  · intro c db sheet y y' h
    exact (generous_year c db h).findings_sublist sheet
  · intro c db sheet
    exact (generous_newly c db).findings_sublist sheet
  · intro a nodes s s' h
    rw [reported_visitAll, reported_visitAll]
    exact a.reports_sublist_of_granted h _
  · intro a gap nodes name span prelude block errors hname
    rw [diagnostics_eq_reports, diagnostics_eq_reports]
    exact a.reports_wrapped hname span prelude block nodes gap []

/-- A rule with two properties, of which one has been available since 2021 and
the other is not; an allowed name, a later year, the lower level and a granted
key each let the first one pass, and so does a support rule that tests it. -/
theorem support_never_adds_properties :
    let named (name : String) : Declaration := ⟨name.toList, default, [], false⟩
    let nodes : List Node := [.declaration (named "gap"), .declaration (named "zoom")]
    let gap : Gap := .inRule [] [] ⟨default, [], none⟩ (.here [] []) []
    let test : Component := .block .round default
      [.token ⟨.ident "gap".toList, default⟩, .token ⟨.colon, default⟩] none
    let db : Database := .ofRecords ""
      [⟨"gap".toList, .property, .newly, some 2021⟩,
        ⟨"zoom".toList, .property, .notBaseline, none⟩]
    let sheet : Stylesheet := ⟨gap.fill nodes, []⟩
    let wrapped : Stylesheet :=
      ⟨gap.fill [.atRule "supports".toList default [test] none nodes], []⟩
    let key : Feature.Key := (.property, "gap".toList)
    let allowing : Configuration := { allowProperties := ["gap".toList] }
    (diagnostics ⟨allowing, db⟩ sheet <+ diagnostics ⟨{}, db⟩ sheet ∧
      (diagnostics ⟨allowing, db⟩ sheet).length = 1 ∧
      (diagnostics ⟨{}, db⟩ sheet).length = 2) ∧
    findings ⟨{ available := .year 2021 }, db⟩ sheet <+
      findings ⟨{ available := .year 2020 }, db⟩ sheet ∧
    findings ⟨{ available := .newly }, db⟩ sheet <+
      findings ⟨{ available := .widely }, db⟩ sheet ∧
    reported (visitAll ⟨{}, db⟩ ⟨⟨[[key]]⟩, []⟩ nodes) <+
      reported (visitAll ⟨{}, db⟩ ⟨.outermost, []⟩ nodes) ∧
    (∃ own, own <+ [aboutRule ⟨{}, db⟩ "supports".toList default] ∧
      Adds own (diagnostics ⟨{}, db⟩ wrapped) (diagnostics ⟨{}, db⟩ sheet)) ∧
    (diagnostics ⟨{}, db⟩ wrapped).length = 1 := by
  intro named nodes gap test db sheet wrapped key allowing
  have hname : isSupportRule "supports".toList = true := by decide +kernel
  obtain ⟨hallow, hyear, hlevel, hscope, hwrap⟩ := support_never_adds
  refine ⟨⟨?_, ?_, ?_⟩, ?_, ?_, ?_, ?_, ?_⟩
  · exact hallow {} allowing db sheet rfl (List.nil_subset _) (List.nil_subset _)
      (List.nil_subset _)
  · decide +kernel
  · decide +kernel
  · exact hyear {} db sheet 2020 2021 (by decide)
  · exact hlevel {} db sheet
  · exact hscope ⟨{}, db⟩ nodes .outermost ⟨[[key]]⟩ (List.nil_subset _)
  · exact hwrap ⟨{}, db⟩ gap nodes _ default [test] none [] hname
  · decide +kernel

end Audit

end StyleAudit
