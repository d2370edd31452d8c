import Mathlib.Data.List.Forall2
import StyleAudit.Proofs.ConditionGrammar
import StyleAudit.Proofs.Monotonicity
import StyleAudit.Proofs.ScopeHistory

/-!
# Support rules inside each other, and their conditions joined

Support rules one inside the other grant what each of their conditions asserts. A
single rule whose condition joins the same terms by `and` grants the same: such a
list is no negation and no disjunction, since it starts with a term and holds no
other word, so it asserts what its terms assert one by one (`Conjoined.asserted`).
The order of the terms only changes the order in which the keys are listed.

What is reported inside depends on the set of granted keys and not on how they were
come by. Around it the two forms do differ: every support rule is an at-rule, whose
own name may be reported. So the statement about walks compares what the nodes
inside add to the walk of the rules without them.
-/

namespace StyleAudit

open Scope (granted)

/-! ## Conjunctions of terms -/

namespace Condition

/-- The ways in which some terms are written one after the other with the word of a
conjunction between them. There is at least one, each is a function or stands in
parentheses, and there may be blanks around each. -/
inductive Conjoined : List Component → List Component → Prop where
  | last {t : Component} {before after : List Component} (ht : t.kind? = none)
      (hbefore : Blank before) (hafter : Blank after) :
      Conjoined [t] (before ++ t :: after)
  | cons {t word : Component} {before after terms cs : List Component} (ht : t.kind? = none)
      (hword : isAnd word = true) (hbefore : Blank before) (hafter : Blank after)
      (h : Conjoined terms cs) :
      Conjoined (t :: terms) (before ++ t :: (after ++ word :: cs))

variable {terms cs : List Component}

theorem Blank.any_isOr (h : Blank cs) : cs.any isOr = false := by
  rw [List.any_eq_false]
  exact fun c hc => ne_true_of_eq_false (isWord_eq_false_of_isWhitespace _ (h c hc))

theorem Conjoined.any_isOr (h : Conjoined terms cs) : cs.any isOr = false := by
  induction h with
  | @last t before after ht hbefore hafter =>
      have hterm : isOr t = false := isWord_of_kind?_none _ ht
      rw [List.any_append, List.any_cons, hbefore.any_isOr, hterm, hafter.any_isOr]
      rfl
  | @cons t word before after terms cs ht hword hbefore hafter h ih =>
      have hterm : isOr t = false := isWord_of_kind?_none _ ht
      have hjoin : isOr word = false := isWord_eq_false_of_ne hword (by decide)
      rw [List.any_append, List.any_cons, List.any_append, List.any_cons, hbefore.any_isOr,
        hterm, hafter.any_isOr, hjoin, ih]
      rfl

theorem Conjoined.startsNegated (h : Conjoined terms cs) : startsNegated cs = false := by
  cases h with
  | last ht hbefore hafter => exact startsNegated_term _ hbefore ht
  | cons ht hword hbefore hafter h => exact startsNegated_term _ hbefore ht

theorem Conjoined.ofTerms (h : Conjoined terms cs) : ofTerms cs = terms.map ofTerm := by
  induction h with
  | last ht hbefore hafter =>
      rw [ofTerms_alone hbefore ht, ofTerms_blank hafter]
      rfl
  | @cons t word before after terms cs ht hword hbefore hafter h ih =>
      have hskip : (word.isWhitespace || isOperator word) = true := by
        rw [isOperator, hword, Bool.true_or, Bool.or_true]
      rw [ofTerms_alone hbefore ht, ofTerms_append, ofTerms_blank hafter, List.nil_append,
        ofTerms_skip cs hskip, ih, List.map_cons]

/-- Terms that are joined assert what each of them asserts. -/
theorem Conjoined.asserted (h : Conjoined terms cs) :
    (ofComponents cs).asserted = terms.flatMap fun t => (ofTerm t).asserted := by
  rw [asserted_ofComponents, isWithheld, h.startsNegated, h.any_isOr, h.ofTerms,
    assertedAll_eq_flatMap, List.flatMap_map]
  rfl

end Condition

/-! ## Rules inside each other -/

theorem Scope.keys_run_enter (s : Scope) (preludes : List (List Component)) :
    (s.run (preludes.map .enter)).keys = s.keys ++ preludes.flatMap granted := by
  induction preludes generalizing s with
  | nil =>
      rw [List.flatMap_nil, List.append_nil]
      rfl
  | cons prelude rest ih =>
      have hrun : s.run ((prelude :: rest).map .enter) =
          (s.enter (granted prelude)).run (rest.map .enter) := rfl
      rw [hrun, ih, keys_enter, List.flatMap_cons, List.append_assoc]

/-- A support rule, whatever it has in its block. -/
structure SupportRule where
  name : Text
  span : Span
  prelude : List Component
  block : Option Block
  isSupport : isSupportRule name = true

namespace SupportRule

/-- The rule as a node, with some nodes inside. -/
def node (r : SupportRule) (children : List Node) : Node :=
  .atRule r.name r.span r.prelude r.block children

/-- Rules one inside the other, the outermost first, and some nodes inside them all. -/
def nested (rules : List SupportRule) (body : List Node) : List Node :=
  rules.foldr (fun r inner => [r.node inner]) body

theorem keys_run_nested (s : Scope) (rules : List SupportRule) :
    (s.run (rules.map fun r => .enter r.prelude)).keys =
      s.keys ++ rules.flatMap fun r => granted r.prelude := by
  have h := s.keys_run_enter (rules.map prelude)
  rwa [List.map_map, List.flatMap_map] at h

/-- Rules each of which has one term as its condition grant what the terms assert. -/
theorem granted_of_terms {rules : List SupportRule} {terms : List Component}
    (h : List.Forall₂ (fun t r => Condition.Conjoined [t] r.prelude) terms rules) :
    (rules.flatMap fun r => granted r.prelude) =
      terms.flatMap fun t => (Condition.ofTerm t).asserted := by
  induction h with
  | nil => rfl
  | cons hterm _ ih =>
      rw [List.flatMap_cons, List.flatMap_cons, ih, granted, hterm.asserted,
        List.flatMap_singleton]

end SupportRule

open SupportRule (nested)

namespace Audit

variable (a : Audit)

theorem reports_node (keys : List Feature.Key) (r : SupportRule) (children : List Node) :
    a.reports keys (Node.occurrencesIn [r.node children]) =
      a.reports keys ((Feature.ofAtRule r.name r.span r.prelude).map .bare) ++
        a.reports (keys ++ granted r.prelude) (Node.occurrencesIn children) := by
  rw [Node.occurrencesIn, Node.occurrencesIn, List.append_nil, SupportRule.node,
    Node.occurrences, if_pos r.isSupport, reports_append, reports_under, Node.features_atRule,
    granted]

/-- What stands inside of all the rules adds its reports behind those of the rules,
in a scope that all of them grant to. -/
theorem reports_nested (keys : List Feature.Key) (rules : List SupportRule)
    (body : List Node) :
    a.reports keys (Node.occurrencesIn (nested rules body)) =
      a.reports keys (Node.occurrencesIn (nested rules [])) ++
        a.reports (keys ++ rules.flatMap fun r => granted r.prelude)
          (Node.occurrencesIn body) := by
  induction rules generalizing keys with
  | nil =>
      rw [List.flatMap_nil, List.append_nil]
      rfl
  | cons r rest ih =>
      have hnested (inner : List Node) : nested (r :: rest) inner = [r.node (nested rest inner)] :=
        rfl
      rw [hnested, hnested, reports_node, reports_node, ih, List.flatMap_cons, List.append_assoc,
        List.append_assoc]

/-- What is reported depends on the granted keys as a set. -/
theorem reports_congr {keys keys' : List Feature.Key} (h : ∀ key, key ∈ keys ↔ key ∈ keys')
    (uses : List Occurrence) : a.reports keys uses = a.reports keys' uses :=
  (a.reports_sublist_of_granted (fun key => (h key).2) uses).antisymm
    (a.reports_sublist_of_granted (fun key => (h key).1) uses)

theorem reported_nested (w : Walk) (rules : List SupportRule) (body : List Node) :
    reported (a.visitAll w (nested rules body)) =
      reported (a.visitAll w (nested rules [])) ++
        a.reports (w.scope.keys ++ rules.flatMap fun r => granted r.prelude)
          (Node.occurrencesIn body) := by
  rw [(a.visitAll_continues w _).2, (a.visitAll_continues w _).2, reports_nested,
    List.append_assoc]

/-- Some terms, each the whole condition of a support rule, and a support rule whose
condition joins the same terms in any order. Entering the first rules one inside the
other leads from any scope to one with the same keys as entering the last rule does.
So a walk reports the same of any nodes inside, in the one scope and in the other,
and this is what they add to the walk of either form without them. -/
theorem nested_rules_conjoin {rules : List SupportRule} {joint : SupportRule}
    {terms permuted : List Component}
    (hrules : List.Forall₂ (fun t r => Condition.Conjoined [t] r.prelude) terms rules)
    (hjoint : Condition.Conjoined permuted joint.prelude) (hperm : permuted.Perm terms) :
    (∀ (s : Scope) (key : Feature.Key),
      key ∈ (s.run (rules.map fun r => .enter r.prelude)).keys ↔
        key ∈ (s.run [.enter joint.prelude]).keys) ∧
    ∀ (a : Audit) (w : Walk) (body : List Node),
      let inside :=
        reported (a.visitAll ⟨w.scope.run (rules.map fun r => .enter r.prelude), []⟩ body)
      reported (a.visitAll ⟨w.scope.run [.enter joint.prelude], []⟩ body) = inside ∧
      reported (a.visitAll w (nested rules body)) =
        reported (a.visitAll w (nested rules [])) ++ inside ∧
      reported (a.visitAll w [joint.node body]) =
        reported (a.visitAll w [joint.node []]) ++ inside := by
  have hjoint_keys (s : Scope) :
      (s.run [.enter joint.prelude]).keys = s.keys ++ granted joint.prelude := rfl
  have hsame (keys : List Feature.Key) (key : Feature.Key) :
      (key ∈ keys ++ rules.flatMap fun r => granted r.prelude) ↔
        key ∈ keys ++ granted joint.prelude := by
    rw [SupportRule.granted_of_terms hrules, granted, hjoint.asserted, List.mem_append,
      List.mem_append, (hperm.flatMap_right _).mem_iff]
  refine ⟨fun s key => ?_, fun a w body => ⟨?_, ?_, ?_⟩⟩
  · rw [SupportRule.keys_run_nested, hjoint_keys]
    exact hsame s.keys key
  · rw [reported_visitAll, reported_visitAll, SupportRule.keys_run_nested, hjoint_keys]
    exact (a.reports_congr (hsame w.scope.keys) _).symm
  · rw [reported_nested, reported_visitAll, SupportRule.keys_run_nested]
  · have hbody := a.reported_nested w [joint] body
    rw [List.flatMap_singleton, ← a.reports_congr (hsame w.scope.keys)] at hbody
    rw [reported_visitAll, SupportRule.keys_run_nested]
    exact hbody

/-- A test of a declaration, a disjunction and a test of a selector, of which the
disjunction asserts nothing. Inside of three rules, as inside of the one that joins
them in another order, `gap` is granted and one more declaration is reported. -/
theorem nested_rules_conjoin_reordered :
    let blank : Component := .token ⟨.whitespace [' '], default⟩
    let has : Component := .function "selector".toList default
      [.token ⟨.colon, default⟩, .token ⟨.ident "has".toList, default⟩] none
    let either : Component := Condition.groupOf
      [Condition.testOf "a" "b", Condition.wordOf "or", Condition.testOf "zoom" "d"]
    let gap : Component := Condition.testOf "gap" "normal"
    let rule (prelude : List Component) : SupportRule :=
      ⟨"supports".toList, default, prelude, none, by decide +kernel⟩
    let rules : List SupportRule := [rule [blank, gap], rule [either], rule [has, blank]]
    let joint : SupportRule := rule [has, blank, Condition.wordOf "AND", gap,
      Condition.wordOf "and", blank, either]
    let a : Audit := ⟨{}, .ofRecords ""
      [⟨"supports".toList, .atRule, .newly, none⟩, ⟨"gap".toList, .property, .newly, none⟩,
        ⟨"zoom".toList, .property, .newly, none⟩]⟩
    let body : List Node := [.declaration ⟨"gap".toList, default, [], false⟩,
      .declaration ⟨"zoom".toList, default, [], false⟩]
    (.property, "gap".toList) ∈ (Scope.outermost.run (rules.map fun r => .enter r.prelude)).keys ∧
    ∃ inside, inside.length = 1 ∧
      reported (a.visitAll .start (nested rules body)) =
        reported (a.visitAll .start (nested rules [])) ++ inside ∧
      reported (a.visitAll .start [joint.node body]) =
        reported (a.visitAll .start [joint.node []]) ++ inside ∧
      (reported (a.visitAll .start (nested rules []))).length = 3 := by
  intro blank has either gap rule rules joint a body
  have hblank : Condition.Blank [blank] := by
    intro c hc
    rw [List.mem_singleton.1 hc]
    rfl
  have hupper : Condition.isAnd (Condition.wordOf "AND") = true := by decide +kernel
  have hlower : Condition.isAnd (Condition.wordOf "and") = true := by decide +kernel
  have hrules : List.Forall₂ (fun t r => Condition.Conjoined [t] r.prelude)
      [gap, either, has] rules :=
    .cons (.last rfl hblank .nil) (.cons (.last rfl .nil .nil) (.cons (.last rfl .nil hblank) .nil))
  have hjoint : Condition.Conjoined [has, gap, either] joint.prelude :=
    .cons rfl hupper .nil hblank (.cons rfl hlower .nil .nil (.last rfl hblank .nil))
  have hperm : ([has] ++ [gap, either]).Perm ([gap, either] ++ [has]) := List.perm_append_comm
  obtain ⟨hkeys, hreported⟩ := nested_rules_conjoin hrules hjoint hperm
  obtain ⟨-, hnested, hsingle⟩ := hreported a .start body
  refine ⟨(hkeys _ _).2 ?_, _, ?_, hnested, hsingle, ?_⟩
  · decide +kernel
  · decide +kernel
  · decide +kernel

end Audit

end StyleAudit
