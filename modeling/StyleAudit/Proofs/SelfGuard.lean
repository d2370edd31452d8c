import StyleAudit.Proofs.RespelledFeatures
import StyleAudit.Proofs.ConditionReading
import StyleAudit.Proofs.SourceOrder

/-!
# A construct inside a test of itself is never reported

The declaration in a stylesheet and the one in a test of support are read by
different readers. The first strips the mark of importance and rejects an empty
value, the second does neither. Still every feature of the first is one of the
second: what is stripped off can only take features away. For selectors both
sides read the same list.

A test and what it guards stand in different places of a source, and nothing
else of a component may depend on that. `Copied` says so of two lists, and since
conditions do not look at places, it is enough to compare a construct with a
test of its own components. `Gap` is any place in the body of a rule, at any
depth; a walk that has granted the keys of a construct passes over it there as
if it were not written.
-/

namespace StyleAudit

open Condition (Blank groupOf wordOf)
open scoped List

/-! ## Reading the same components twice -/

namespace Declaration

theorem of_ofComponents_eq_ok {cs : List Component} {d : Declaration}
    (h : ofComponents cs = .ok d) :
    ∃ rest colon body,
      cs.dropWhile Component.isWhitespace = .token ⟨.ident d.name, d.span⟩ :: rest ∧
      rest.dropWhile Component.isWhitespace = .token ⟨.colon, colon⟩ :: body ∧
      splitImportant (trim Component.isWhitespace body) = (d.values, d.important) := by
  unfold ofComponents at h
  split at h
  · next name span rest hname =>
      split at h
      · next colon body hcolon =>
          simp only [] at h
          split at h
          · cases h
          · cases h
            exact ⟨rest, colon, body, hname, hcolon, rfl⟩
      · cases h
  · cases h

/-- Whatever is a declaration of a stylesheet is one in a test, with the same
property and at least the same values. -/
theorem exists_tested {cs : List Component} {d : Declaration}
    (h : ofComponents cs = .ok d) :
    ∃ t, Condition.declaration? cs = some t ∧ t.name = d.name ∧
      t.span = d.span ∧ d.values <+ t.values := by
  obtain ⟨rest, colon, body, hname, hcolon, hsplit⟩ := of_ofComponents_eq_ok h
  refine ⟨⟨d.name, d.span, trim Component.isWhitespace body, false⟩, ?_, rfl, rfl,
    ?_⟩
  · rw [Condition.declaration?, hname]
    simp only [hcolon]
  · have hvalues := splitImportant_sublist (trim Component.isWhitespace body)
    rwa [hsplit] at hvalues

end Declaration

theorem Feature.ofDeclaration_subset {d t : Declaration} (hname : t.name = d.name)
    (hspan : t.span = d.span) (hvalues : d.values <+ t.values) :
    ofDeclaration d ⊆ ofDeclaration t := by
  unfold ofDeclaration
  rw [hname, hspan]
  split
  · exact List.Subset.refl _
  · refine List.cons_subset_cons _ fun f hf => ?_
    obtain ⟨c, hc, hf⟩ := List.mem_flatMap.1 hf
    exact List.mem_flatMap.2 ⟨c, hvalues.subset hc, hf⟩

namespace Condition

/-- A test of a declaration alone asserts all of its features. -/
theorem asserted_of_declaration {before after cs : List Component} {d : Declaration}
    {f : Feature} (hbefore : Blank before) (hafter : Blank after)
    (opening : Span) (closing : Option Span)
    (hd : Declaration.ofComponents cs = .ok d) (hf : f ∈ Feature.ofDeclaration d) :
    f.scopeKey ∈
      (ofComponents (before ++ .block .round opening cs closing :: after)).asserted := by
  obtain ⟨t, ht, hname, hspan, hvalues⟩ := Declaration.exists_tested hd
  rw [ofComponents_alone hbefore hafter rfl, ofTerm, ht]
  exact List.mem_map_of_mem (Feature.ofDeclaration_subset hname hspan hvalues hf)

/-- A test of selectors alone asserts all of their features. -/
theorem asserted_of_selectors {before after ss : List Component} {test : Text}
    {f : Feature} (hbefore : Blank before) (hafter : Blank after)
    (htest : Text.lower test = "selector".toList) (head : Span)
    (closing : Option Span) (hf : f ∈ Feature.selectors ss) :
    f.scopeKey ∈
      (ofComponents (before ++ .function test head ss closing :: after)).asserted := by
  rw [ofComponents_alone hbefore hafter rfl, ofTerm, if_pos htest]
  exact List.mem_map_of_mem hf

end Condition

/-! ## Copies -/

/-- Nothing is respelled, and all places are forgotten. -/
def Respelling.placeless : Respelling where
  name := id
  place _ := .start
  lower_name _ := rfl
  custom_name _ := rfl
  nesting_name := rfl

/-- Two lists of components that differ at most in where they stand. -/
def Copied (cs cs' : List Component) : Prop :=
  cs.map Respelling.placeless.component = cs'.map Respelling.placeless.component

namespace Copied

variable {cs cs' : List Component}

theorem ofComponents_eq (h : Copied cs cs') :
    Condition.ofComponents cs = Condition.ofComponents cs' := by
  rw [← Respelling.placeless.ofComponents_component, h,
    Respelling.placeless.ofComponents_component]

theorem block (h : Copied cs cs') (before after : List Component)
    (bracket : Bracket) (opening : Span) (closing : Option Span) :
    Copied (before ++ .block bracket opening cs closing :: after)
      (before ++ .block bracket opening cs' closing :: after) := by
  unfold Copied at h ⊢
  rw [List.map_append, List.map_append, List.map_cons, List.map_cons,
    Respelling.component_block, Respelling.component_block, h]

theorem function (h : Copied cs cs') (before after : List Component)
    (name : Text) (head : Span) (closing : Option Span) :
    Copied (before ++ .function name head cs closing :: after)
      (before ++ .function name head cs' closing :: after) := by
  unfold Copied at h ⊢
  rw [List.map_append, List.map_append, List.map_cons, List.map_cons,
    Respelling.component_function, Respelling.component_function, h]

end Copied

/-! ## Anywhere inside -/

/-- A list of nodes with a gap in it: between two of them, or inside one. -/
inductive Gap where
  | here (before after : List Node)
  | inRule (before : List Node) (prelude : List Component) (block : Block)
      (gap : Gap) (after : List Node)
  | inAtRule (before : List Node) (name : Text) (span : Span)
      (prelude : List Component) (block : Option Block) (gap : Gap)
      (after : List Node)

/-- The list with nodes in the gap. -/
def Gap.fill (nodes : List Node) : Gap → List Node
  | here before after => before ++ (nodes ++ after)
  | inRule before prelude block gap after =>
      before ++ .rule prelude block (gap.fill nodes) :: after
  | inAtRule before name span prelude block gap after =>
      before ++ .atRule name span prelude block (gap.fill nodes) :: after

namespace Audit

theorem visitAll_append (a : Audit) (w : Walk) (nodes more : List Node) :
    a.visitAll w (nodes ++ more) = a.visitAll (a.visitAll w nodes) more := by
  induction nodes generalizing w with
  | nil => rw [visitAll, List.nil_append]
  | cons n nodes ih => rw [List.cons_append, visitAll, visitAll, ih]

theorem checkAll_of_granted (a : Audit) {w : Walk} {features : List Feature}
    (h : ∀ f ∈ features, f.scopeKey ∈ w.scope.keys) :
    a.checkAll w features = w := by
  induction features with
  | nil => rfl
  | cons f rest ih =>
      have hcheck : a.check w f = w := by
        rw [check_eq, if_neg]
        exact fun hoffends => hoffends.2.1 (h f List.mem_cons_self)
      show a.checkAll (a.check w f) rest = w
      rw [hcheck]
      exact ih fun g hg => h g (List.mem_cons_of_mem _ hg)

/-- Nodes that a walk cannot tell apart where some keys are granted can be
exchanged at any depth, since no walk takes back what is granted around it. -/
theorem visitAll_fill {a : Audit} {keys : List Feature.Key} {nodes more : List Node}
    (h : ∀ w : Walk, keys ⊆ w.scope.keys → a.visitAll w nodes = a.visitAll w more)
    (gap : Gap) {w : Walk} (hw : keys ⊆ w.scope.keys) :
    a.visitAll w (gap.fill nodes) = a.visitAll w (gap.fill more) := by
  induction gap generalizing w with
  | here before after =>
      have hbefore := (a.visitAll_continues w before).1
      rw [Gap.fill, Gap.fill, visitAll_append, visitAll_append _ _ before,
        visitAll_append _ _ nodes, visitAll_append _ _ more, h _ (hbefore ▸ hw)]
  | inRule before prelude block gap after ih =>
      have hbefore := (a.visitAll_continues w before).1
      have hprelude := (a.checkAll_continues (a.visitAll w before)
        (Feature.selectors prelude)).1
      rw [Gap.fill, Gap.fill, visitAll_append, visitAll_append, visitAll, visitAll,
        visit, visit, ih (hprelude ▸ hbefore ▸ hw)]
  | inAtRule before name span prelude block gap after ih =>
      have hbefore := (a.visitAll_continues w before).1
      have hname := (a.checkAll_continues (a.visitAll w before)
        (Feature.ofAtRule name span prelude)).1
      have hinside := hname ▸ hbefore ▸ hw
      rw [Gap.fill, Gap.fill, visitAll_append, visitAll_append, visitAll, visitAll,
        visit, visit, ih hinside,
        ih (List.Subset.trans hinside (List.subset_append_left _ _))]

/-- In a support rule that asserts some features, nodes that differ in the check
of these can be exchanged anywhere. -/
theorem visit_fill_of_asserted {a : Audit} (features : List Feature)
    {prelude : List Component} {nodes more : List Node} {name : Text}
    (hasserted : ∀ f ∈ features,
      f.scopeKey ∈ (Condition.ofComponents prelude).asserted)
    (hname : isSupportRule name = true) (w : Walk) (span : Span)
    (block : Option Block) (gap : Gap)
    (h : ∀ w, a.checkAll w features = w → a.visitAll w nodes = a.visitAll w more) :
    a.visit w (.atRule name span prelude block (gap.fill nodes)) =
      a.visit w (.atRule name span prelude block (gap.fill more)) := by
  have hgranted (w : Walk) (hw : Condition.keysOf features ⊆ w.scope.keys) :
      a.visitAll w nodes = a.visitAll w more :=
    h w (a.checkAll_of_granted fun f hf => hw (List.mem_map_of_mem hf))
  rw [visit, visit, if_pos hname, if_pos hname, visitAll_fill hgranted gap]
  intro key hkey
  obtain ⟨f, hf, rfl⟩ := List.mem_map.1 hkey
  exact List.mem_append_right _ (hasserted f hf)

/-- A construct guarded by a test of itself is never reported. A test that is
the whole condition asserts every feature of a declaration that is built from its
components, and of selectors that are. So inside the support rule, wherever a
copy of them stands, the walk is the same without the declaration, and the same
without the rule that the selectors are of but with all that is in it. -/
theorem construct_guarded_by_itself :
    (∀ (cs : List Component) (d : Declaration) (opening : Span)
        (closing : Option Span), Declaration.ofComponents cs = .ok d →
      ∀ f ∈ Feature.ofDeclaration d, f.scopeKey ∈
        (Condition.ofComponents [.block .round opening cs closing]).asserted) ∧
    (∀ (ss : List Component) (test : Text) (head : Span) (closing : Option Span),
      Text.lower test = "selector".toList →
      ∀ f ∈ Feature.selectors ss, f.scopeKey ∈
        (Condition.ofComponents [.function test head ss closing]).asserted) ∧
    ∀ (a : Audit) (w : Walk) (name : Text) (span : Span)
      (before after : List Component) (block : Option Block) (gap : Gap),
      isSupportRule name = true → Blank before → Blank after →
      (∀ (cs cs' : List Component) (d : Declaration) (opening : Span)
          (closing : Option Span),
        Copied cs cs' → Declaration.ofComponents cs' = .ok d →
        a.visit w (.atRule name span
            (before ++ .block .round opening cs closing :: after) block
            (gap.fill [.declaration d])) =
          a.visit w (.atRule name span
            (before ++ .block .round opening cs closing :: after) block
            (gap.fill []))) ∧
      ∀ (ss ss' : List Component) (test : Text) (head : Span)
        (closing : Option Span) (inner : Block) (children : List Node),
        Text.lower test = "selector".toList → Copied ss ss' →
        a.visit w (.atRule name span
            (before ++ .function test head ss closing :: after) block
            (gap.fill [.rule ss' inner children])) =
          a.visit w (.atRule name span
            (before ++ .function test head ss closing :: after) block
            (gap.fill children)) := by
  refine ⟨?_, ?_, ?_⟩
  · intro cs d opening closing hd f hf
    exact Condition.asserted_of_declaration Blank.nil Blank.nil opening closing hd hf
  · intro ss test head closing htest f hf
    exact Condition.asserted_of_selectors Blank.nil Blank.nil htest head closing hf
  · intro a w name span before after block gap hname hbefore hafter
    constructor
    · intro cs cs' d opening closing hcopied hd
      refine visit_fill_of_asserted (Feature.ofDeclaration d) (fun f hf => ?_)
        hname w span block gap fun w hcheck => ?_
      · rw [(hcopied.block before after .round opening closing).ofComponents_eq]
        exact Condition.asserted_of_declaration hbefore hafter opening closing hd hf
      · rw [visitAll, visitAll, visitAll, visit, hcheck]
    · intro ss ss' test head closing inner children htest hcopied
      refine visit_fill_of_asserted (Feature.selectors ss') (fun f hf => ?_)
        hname w span block gap fun w hcheck => ?_
      · rw [(hcopied.function before after test head closing).ofComponents_eq]
        exact Condition.asserted_of_selectors hbefore hafter htest head closing hf
      · rw [visitAll, visitAll, visit, hcheck]

/-- A declaration that is reported elsewhere is passed over in a rule inside
`@supports (gap: normal!important)`, one line further on, and the name of that
rule is passed over inside `@supports selector(:has)`. -/
theorem construct_guarded_by_itself_in_rule :
    let colon : Component := .token ⟨.colon, default⟩
    let gap (line : Int) : Component :=
      .token ⟨.ident "gap".toList, ⟨⟨line, 1⟩, ⟨line, 4⟩⟩⟩
    let value : List Component := [colon, wordOf "normal",
      .token ⟨.delim '!', default⟩, wordOf "important"]
    let selector : List Component := [colon, wordOf "has"]
    let test : Component := .function "selector".toList default selector none
    let d : Declaration :=
      ⟨"gap".toList, ⟨⟨2, 1⟩, ⟨2, 4⟩⟩, [wordOf "normal"], true⟩
    let rule (children : List Node) : Node :=
      .rule selector ⟨default, [], none⟩ children
    let a : Audit := ⟨{}, .ofRecords ""
      [⟨"gap".toList, .property, .newly, none⟩,
        ⟨"has".toList, .selector, .newly, none⟩]⟩
    let walk (guard : Component) (nodes : List Node) : Walk :=
      a.visit .start (.atRule "supports".toList default [guard] none nodes)
    (.property, "gap".toList) ∈
      (Condition.ofComponents [groupOf (gap 1 :: value)]).asserted ∧
    (.selector, "has".toList) ∈ (Condition.ofComponents [test]).asserted ∧
    (a.visit .start (rule [.declaration d])).events.length = 2 ∧
    walk (groupOf (gap 1 :: value)) [rule [.declaration d]] =
      walk (groupOf (gap 1 :: value)) [rule []] ∧
    walk test [rule [.declaration d]] = walk test [.declaration d] := by
  intro colon gap value selector test d rule a walk
  have hd : Declaration.ofComponents (gap 2 :: value) = .ok d := rfl
  have hcopied : Copied (gap 1 :: value) (gap 2 :: value) := rfl
  have htest : Text.lower "selector".toList = "selector".toList := by decide +kernel
  have hname : isSupportRule "supports".toList = true := by decide +kernel
  obtain ⟨hdeclaration, hselectors, hwalk⟩ := construct_guarded_by_itself
  have hinside (gap : Gap) :=
    hwalk a .start _ default [] [] none gap hname Blank.nil Blank.nil
  refine ⟨?_, ?_, ?_, ?_, ?_⟩
  · exact hdeclaration (gap 1 :: value) _ default none rfl
      ⟨.property, "gap".toList, ⟨⟨1, 1⟩, ⟨1, 4⟩⟩, [("property", .str "gap")]⟩
      (by decide +kernel)
  · exact hselectors selector _ default none htest
      ⟨.selector, "has".toList, default, [("selector", .str "has")]⟩
      (by decide +kernel)
  · decide +kernel
  · exact (hinside (.inRule [] selector ⟨default, [], none⟩ (.here [] []) [])).1
      _ _ d default none hcopied hd
  · exact (hinside (.here [] [])).2
      selector selector _ default none _ [.declaration d] htest rfl

end Audit

end StyleAudit
