import Mathlib.Control.Monad.Basic
import StyleAudit.Proofs.MessageTemplates
import StyleAudit.Proofs.Occurrences

/-!
# A walk never breaks off

Three steps of a walk look something up by name and could fail: an allow-list wants
the property that a feature belongs to, and a message wants the names in its template,
when a diagnostic is logged and when it is printed. `diagnostics?` is the walk with
these failures in it. It comes to the end, because a feature is made in few ways
(`Feature.Form`), each with the names that its kind calls for.

Where these names come from is said by `Node.Writes`, one case for each kind: they
stand, as they were written, in the part of the tree that the diagnostic is about.
-/

namespace StyleAudit

/-- Why a walk breaks off: a look-up in an allow-list fails, or a message has no name
to put in. -/
inductive Failure where
  | exemption (e : Configuration.NameError)
  | message
deriving DecidableEq, Repr

/-- A diagnostic as a JSON object, if it has a message. -/
def Diagnostic.toJson? (d : Diagnostic) : Except Failure Json := do
  let some message := d.message? | throw .message
  return .obj [("messageId", .str d.kind.messageId), ("message", .str message),
    ("data", .obj d.data), ("line", .int d.span.start.line),
    ("column", .int d.span.start.column), ("endLine", .int d.span.stop.line),
    ("endColumn", .int d.span.stop.column)]

namespace Audit

/-- A walk on which a feature has been checked, if no look-up fails. What is reported
is logged with its message. -/
def check? (a : Audit) (w : Walk) (f : Feature) : Except Failure Walk := do
  if ← (a.configuration.exempts? f).mapError .exemption then return w
  if w.scope.allows f.scopeKey then return w
  if a.configuration.available.supports a.database f.kind f.key then return w
  let d := Diagnostic.ofFeature f a.configuration.available.toJson
  let some _ := d.message? | throw .message
  return w.note (.reported d)

/-- A walk on which some features have been checked, if no look-up fails. -/
def checkAll? (a : Audit) (w : Walk) (features : List Feature) : Except Failure Walk :=
  features.foldlM a.check? w

mutual

/-- A walk that has visited a node, if no look-up fails. -/
def visit? (a : Audit) (w : Walk) : Node → Except Failure Walk
  | .declaration d => a.checkAll? w (Feature.ofDeclaration d)
  | .rule prelude _ children => do
      let w ← a.checkAll? w (Feature.selectors prelude)
      a.visitAll? w children
  | .atRule name span prelude _ children => do
      let w ← a.checkAll? w (Feature.ofAtRule name span prelude)
      if isSupportRule name then
        let w ← a.visitAll? (w.enter span.start (Condition.ofComponents prelude).asserted) children
        return w.leave
      else a.visitAll? w children
  | .malformed _ error => return w.note (.skipped error)

/-- A walk that has visited some nodes in order, if no look-up fails. -/
def visitAll? (a : Audit) (w : Walk) : List Node → Except Failure Walk
  | [] => return w
  | n :: rest => do
      let w ← a.visit? w n
      a.visitAll? w rest

end

/-- The diagnostics of a stylesheet, if no look-up fails. -/
def diagnostics? (a : Audit) (sheet : Stylesheet) : Except Failure (List Diagnostic) := do
  let w ← a.visitAll? .start sheet.rules
  return w.events.filterMap Event.diagnostic?

/-! ## No look-up fails -/

theorem exists_message_of_form {f : Feature} (hf : f.Form) (availability : Json) :
    ∃ message, (Diagnostic.ofFeature f availability).message? = some message := by
  cases hf <;> exact ⟨_, rfl⟩

theorem check?_eq (a : Audit) (w : Walk) {f : Feature} (hf : f.Form) :
    a.check? w f = .ok (a.check w f) := by
  obtain ⟨b, hb⟩ := exempts?_of_form a.configuration hf
  obtain ⟨message, hmessage⟩ := exists_message_of_form hf a.configuration.available.toJson
  have hexempts : a.configuration.exempts f = b := by
    rw [Configuration.exempts, hb]
  unfold check? check
  rw [hb, hexempts]
  dsimp only
  rw [hmessage]
  cases b with
  | true => rfl
  | false =>
      cases w.scope.allows f.scopeKey with
      | true => rfl
      | false => cases a.configuration.available.supports a.database f.kind f.key <;> rfl

theorem checkAll?_eq (a : Audit) (w : Walk) {features : List Feature}
    (h : ∀ f ∈ features, f.Form) : a.checkAll? w features = .ok (a.checkAll w features) := by
  induction features generalizing w with
  | nil => rfl
  | cons f rest ih =>
      obtain ⟨hf, hrest⟩ := List.forall_mem_cons.1 h
      rw [checkAll?, List.foldlM_cons, check?_eq a w hf]
      exact ih (a.check w f) hrest

mutual

theorem visit?_eq (a : Audit) (w : Walk) (n : Node) : a.visit? w n = .ok (a.visit w n) := by
  match n with
  | .declaration d =>
      rw [visit?, visit]
      exact a.checkAll?_eq w fun f hf => Feature.form_of_mem_ofDeclaration hf
  | .rule prelude block children =>
      rw [visit?, visit, a.checkAll?_eq w fun f hf => Feature.form_of_mem_selectors hf]
      exact a.visitAll?_eq _ children
  | .atRule name span prelude block children =>
      rw [visit?, visit, a.checkAll?_eq w fun f hf => Feature.form_of_mem_ofAtRule hf]
      change (if isSupportRule name then _ else _) = _
      split
      · rw [a.visitAll?_eq _ children]
        rfl
      · exact a.visitAll?_eq _ children
  | .malformed values error =>
      rw [visit?, visit]
      rfl

theorem visitAll?_eq (a : Audit) (w : Walk) (nodes : List Node) :
    a.visitAll? w nodes = .ok (a.visitAll w nodes) := by
  match nodes with
  | [] =>
      rw [visitAll?, visitAll]
      rfl
  | n :: rest =>
      rw [visitAll?, visitAll, a.visit?_eq w n]
      exact a.visitAll?_eq _ rest

end

theorem diagnostics?_eq (a : Audit) (sheet : Stylesheet) :
    a.diagnostics? sheet = .ok (a.diagnostics sheet) := by
  rw [diagnostics?, visitAll?_eq]
  rfl

end Audit

/-! ## Names as they are written -/

open Component (partsAll)

namespace Node

/-- The names that a node writes for a feature of a kind, under the words that messages
use, and the place that it names the feature at. The mark of the nesting selector is
the one that goes by a name it is not written with. -/
inductive Writes : Node → Feature.Kind → Span → Dictionary String Text → Prop where
  | property {d : Declaration} : Writes (declaration d) .property d.span [("property", d.name)]
  | value {d : Declaration} {name : Text} {span : Span}
      (h : .token ⟨.ident name, span⟩ ∈ d.values) :
      Writes (declaration d) .propertyValue span [("property", d.name), ("value", name)]
  | function {d : Declaration} {name : Text} {head : Span} {values : List Component}
      {closing : Option Span} (h : .function name head values closing ∈ partsAll d.values) :
      Writes (declaration d) .function (Component.function name head values closing).span
        [("function", name)]
  | atRule {name : Text} {span : Span} {prelude : List Component} {block : Option Block}
      {children : List Node} :
      Writes (atRule name span prelude block children) .atRule span [("atRule", name)]
  | pseudoClass {prelude : List Component} {block : Block} {children : List Node} {name : Text}
      {span : Span} (start : Position) (h : .token ⟨.ident name, span⟩ ∈ partsAll prelude) :
      Writes (rule prelude block children) .selector ⟨start, span.stop⟩ [("selector", name)]
  | pseudoFunction {prelude : List Component} {block : Block} {children : List Node}
      {name : Text} {head : Span} {values : List Component} {closing : Option Span}
      (start : Position) (h : .function name head values closing ∈ partsAll prelude) :
      Writes (rule prelude block children) .selector ⟨start, head.nameEnd⟩ [("selector", name)]
  | nesting {prelude : List Component} {block : Block} {children : List Node} {span : Span}
      (h : .token ⟨.delim '&', span⟩ ∈ partsAll prelude) :
      Writes (rule prelude block children) .selector span [("selector", "nesting".toList)]
  | mediaCondition {rule : Text} {keyword : Span} {prelude : List Component}
      {block : Option Block} {children : List Node} {name : Text} {span : Span}
      (h : .token ⟨.ident name, span⟩ ∈ partsAll prelude) :
      Writes (atRule rule keyword prelude block children) .mediaCondition span
        [("condition", name)]

/-- A feature has the names that a node writes for it. -/
def Names (n : Node) (f : Feature) : Prop :=
  ∃ names, n.Writes f.kind f.span names ∧
    f.details = names.map fun p => (p.1, .ofText p.2)

section

variable {f : Feature} {prelude : List Component} {children : List Node}

theorem names_of_mem_declaration {d : Declaration} (hf : f ∈ (declaration d).features) :
    (declaration d).Names f := by
  rw [features_declaration] at hf
  unfold Feature.ofDeclaration at hf
  split at hf
  · cases hf
  · rcases List.mem_cons.1 hf with rfl | hf
    · exact ⟨_, .property, rfl⟩
    · obtain ⟨c, hc, hf⟩ := List.mem_flatMap.1 hf
      rcases Feature.of_mem_ofValue hf with hkeyword | ⟨p, hp, hfunction⟩
      · obtain ⟨name, span, rfl, -, rfl⟩ := Feature.keyword?_eq_some hkeyword
        exact ⟨_, .value hc, rfl⟩
      · obtain ⟨name, head, values, closing, rfl, -, rfl⟩ := Feature.function?_eq_some hfunction
        exact ⟨_, .function (Component.parts_subset hc hp), rfl⟩

theorem names_of_mem_rule {block : Block} (hf : f ∈ (rule prelude block children).features) :
    (rule prelude block children).Names f := by
  obtain ⟨p, hp, hselects⟩ := Feature.selectedIn_of_mem_selectors hf
  cases hselects with
  | pseudoClass start hvendor => exact ⟨_, .pseudoClass start hp, rfl⟩
  | pseudoFunction start hvendor => exact ⟨_, .pseudoFunction start hp, rfl⟩
  | nesting => exact ⟨_, .nesting hp, rfl⟩

theorem names_of_mem_atRule {name : Text} {span : Span} {block : Option Block}
    (hf : f ∈ (atRule name span prelude block children).features) :
    (atRule name span prelude block children).Names f := by
  rw [features_atRule] at hf
  rcases Feature.of_mem_ofAtRule hf with ⟨-, rfl⟩ | ⟨word, place, hmem, -, rfl⟩
  · exact ⟨_, .atRule, rfl⟩
  · exact ⟨_, .mediaCondition hmem, rfl⟩

/-- The features of a node have names that it writes. -/
theorem names_of_mem_features {n : Node} (hf : f ∈ n.features) : n.Names f := by
  cases n with
  | declaration d => exact names_of_mem_declaration hf
  | rule prelude block children => exact names_of_mem_rule hf
  | atRule name span prelude block children => exact names_of_mem_atRule hf
  | malformed values error => cases hf

end

end Node

/-! ## Messages -/

/-- Whether a threshold is a year. -/
def Threshold.isYear : Threshold → Bool
  | year _ => true
  | _ => false

/-- A threshold as a message writes it. -/
def Threshold.written : Threshold → Text
  | widely => "widely".toList
  | newly => "newly".toList
  | year y => (toString y).toList

theorem Threshold.isYear_toJson (t : Threshold) : Diagnostic.isYear t.toJson = t.isYear := by
  cases t <;> rfl

theorem Threshold.text_toJson (t : Threshold) : t.toJson.text.toList = t.written := by
  cases t <;> rfl

theorem Dictionary.get?_map {α β γ : Type} [DecidableEq α] (g : β → γ) (key : α)
    (d : Dictionary α β) :
    get? key (d.map fun p => (p.1, g p.2)) = (get? key d).map g := by
  induction d with
  | nil => rfl
  | cons p rest ih =>
      rw [List.map_cons, get?, get?, ih]
      split <;> rfl

theorem map_text_ofText (names : Dictionary String Text) :
    (names.map fun p => (p.1, Json.ofText p.2)).map (fun p => (p.1, p.2.text.toList)) =
      names := by
  induction names with
  | nil => rfl
  | cons p rest ih =>
      rw [List.map_cons, List.map_cons, ih]
      exact congrArg (fun t => (p.1, t) :: rest) String.toList_ofList

namespace Audit

theorem toJson?_eq {d : Diagnostic} {message : String} (h : d.message? = some message) :
    d.toJson? = .ok d.toJson := by
  rw [Diagnostic.toJson?, Diagnostic.toJson, Diagnostic.message, h]
  rfl

/-- The diagnostics of a stylesheet are found without a failure, and so are their messages.
Each is about names that some node writes, and its message is the template of its kind,
the one for years if and only if the threshold is a year, with these names put in as they
are written, and with the threshold. How deep an interpreter of the walk can recurse and how
long a year it can print are not part of what fails here. -/
theorem reports_without_failure (a : Audit) (sheet : Stylesheet) :
    a.diagnostics? sheet = .ok (a.diagnostics sheet) ∧
    ∀ d ∈ a.diagnostics sheet, ∃ n ∈ Node.withinAll sheet.rules, ∃ names message,
      n.Writes d.kind d.span names ∧
      d.data = names.map (fun p => (p.1, .ofText p.2)) ++
        [("availability", a.configuration.available.toJson)] ∧
      Template.fill
          (fun word => Dictionary.get? (String.ofList word)
            (names ++ [("availability", a.configuration.available.written)]))
          (Template.select d.kind a.configuration.available.isYear) = some message ∧
      d.message? = some (String.ofList message) ∧ d.toJson? = .ok d.toJson := by
  refine ⟨a.diagnostics?_eq sheet, fun d hd => ?_⟩
  rw [a.diagnostics_eq_reports] at hd
  obtain ⟨o, ho, rfl⟩ := List.mem_map.1 hd
  have huse := (List.mem_filter.1 ho).1
  obtain ⟨n, hn, hfeature⟩ := Node.mem_within_of_mem_occurrencesIn huse
  obtain ⟨names, hwrites, hdetails⟩ := Node.names_of_mem_features hfeature
  have hform := Node.form_of_mem_features hfeature
  obtain ⟨message, hmessage⟩ :=
    exists_message_of_form hform a.configuration.available.toJson
  have hdata := data_of_form hform a.configuration.available.toJson
  rw [hdetails] at hdata
  have hvalues : (Diagnostic.ofFeature o.feature a.configuration.available.toJson).value? =
      fun word => Dictionary.get? (String.ofList word)
        (names ++ [("availability", a.configuration.available.written)]) := by
    funext word
    rw [Diagnostic.value?, hdata, ← Dictionary.get?_map, List.map_append, map_text_ofText,
      List.map_singleton, Threshold.text_toJson]
  have hfill := Diagnostic.message?_eq_fill
    (.ofFeature o.feature a.configuration.available.toJson)
  rw [hmessage, hvalues] at hfill
  refine ⟨n, hn, names, message.toList, hwrites, hdata, ?_, ?_, toJson?_eq hmessage⟩
  · rw [← Threshold.isYear_toJson]
    exact hfill.symm
  · rw [String.ofList_toList]
    exact hmessage

/-- A value that is spelled as the word of a template: it is in the message as it is. -/
theorem reports_without_failure_template :
    let a : Audit := ⟨⟨.year 2020, [], [], []⟩, .ofRecords ""
      [⟨"zoom:\x7bavailability\x7d".toList, .propertyValue, .newly, none⟩]⟩
    let source := "a\x7bzoom:\\7b availability\\7d\x7d".toList
    ∃ sheet d, Stylesheet.parse .tolerant source = .ok sheet ∧
      a.diagnostics? sheet = .ok [d] ∧ d.toJson? = .ok d.toJson ∧
      d.message? =
        some "Value '\x7bavailability\x7d' of property 'zoom' is not available as of 2020." ∧
      ∃ n ∈ Node.withinAll sheet.rules, ∃ names,
        n.Writes .propertyValue ⟨⟨1, 8⟩, ⟨1, 27⟩⟩ names := by
  intro a source
  have hmessages : (a.lint .tolerant source).map (List.map fun d => (d.kind, d.span, d.message?)) =
      .ok [(.propertyValue, ⟨⟨1, 8⟩, ⟨1, 27⟩⟩,
        some "Value '\x7bavailability\x7d' of property 'zoom' is not available as of 2020.")] := by
    decide +kernel
  rw [lint] at hmessages
  cases hparse : Stylesheet.parse .tolerant source with
  | error e =>
      rw [hparse] at hmessages
      cases hmessages
  | ok sheet =>
      rw [hparse] at hmessages
      obtain ⟨hwalk, hreports⟩ := a.reports_without_failure sheet
      have hmap := Except.ok.inj hmessages
      generalize a.diagnostics sheet = diagnostics at hwalk hreports hmap
      obtain ⟨d, rfl⟩ : ∃ d, diagnostics = [d] :=
        List.length_eq_one_iff.1 (by simpa using congrArg List.length hmap)
      obtain ⟨n, hn, names, message, hwrites, -, -, -, hjson⟩ :=
        hreports d (List.mem_singleton_self d)
      have hfields := (List.cons.inj hmap).1
      rw [Prod.mk.injEq, Prod.mk.injEq] at hfields
      rw [hfields.1, hfields.2.1] at hwrites
      exact ⟨sheet, d, rfl, hwalk, hjson, hfields.2.2, n, hn, names, hwrites⟩

end Audit

end StyleAudit
