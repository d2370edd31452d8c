import StyleAudit.Proofs.FeatureOrder
import StyleAudit.Proofs.Tiling

/-!
# Diagnostics come in source order

The tokens of a source start at increasing positions, as they tile it. Grouping
by brackets nests them without changing the order in which they start; a segment
splits them into a prelude, a block and what follows; trimming, the mark of
importance and malformed pieces only take some away. So the places where the
components of a tree start are a sublist of the places where its tokens start,
and so are those of the features in it, of the uses that offend, and of the
diagnostics. A sublist of what is strictly increasing is strictly increasing.

The readers of the tree are the same in both modes as far as what they return is
concerned; `Outcome.Ensures` says what holds of it, if they finish.
-/

namespace StyleAudit

open scoped List

open Component (startsIn startsIn_cons startsIn_sublist weights)

/-! ## Grouping -/

namespace Opening

theorem starts_component (o : Opening) (values : List Component)
    (closing : Option Span) :
    (o.component values closing).starts = o.span.start :: startsIn values := by
  rw [Component.starts_eq]
  unfold component
  split <;> rfl

theorem starts_of_of? {c : Component} {o : Opening} (h : of? c = some o) :
    c.starts = [o.span.start] := by
  unfold of? at h
  split at h
  · cases h
    rfl
  · cases h
    rfl
  · cases h

end Opening

theorem starts_enclose (o : Opening) (cs : List Component) :
    startsIn (enclose o cs).values ++ startsIn (enclose o cs).rest
      <+ startsIn cs := by
  cases cs with
  | nil =>
      rw [enclose_nil]
      exact .slnil
  | cons c rest =>
      have hrest : startsIn rest <+ startsIn (c :: rest) :=
        startsIn_sublist (List.sublist_cons_self c rest)
      rw [enclose_cons]
      split
      · exact hrest
      · split
        · exact hrest
        · split
          · next inner hinner =>
              have hweight := weights_enclose inner rest
              have hcontents := starts_enclose inner rest
              have hmore := starts_enclose o (enclose inner rest).rest
              simp only [startsIn_cons, Opening.starts_component,
                Opening.starts_of_of? hinner, List.append_assoc]
              exact ((hmore.append_left _).trans hcontents).cons_cons _
          · simp only [startsIn_cons, List.append_assoc]
            exact (starts_enclose o rest).append_left _
termination_by weights cs
decreasing_by
  all_goals
    have hc := c.weight_pos
    simp only [weights]
    omega

theorem starts_takeValue (c : Component) (rest : List Component) :
    (takeValue c rest).value.starts ++ startsIn (takeValue c rest).rest
      <+ startsIn (c :: rest) := by
  rw [startsIn_cons]
  unfold takeValue
  split
  · next o ho =>
      simp only [Opening.starts_component, Opening.starts_of_of? ho]
      exact (starts_enclose o rest).cons_cons _
  · exact .refl _

/-! ## Segments -/

namespace Segment

/-- Where what the block of a segment holds starts. -/
def blockStarts (s : Segment) : List Position :=
  match s.block with
  | some b => startsIn b.values
  | none => []

/-- Where a segment and what follows it start. -/
def starts (s : Segment) : List Position :=
  startsIn s.values ++ (s.blockStarts ++ startsIn s.rest)

theorem starts_close (s : Segment) : s.close.starts <+ s.starts := by
  refine List.Sublist.append_left (List.Sublist.append_left ?_ _) _
  unfold close
  simp only []
  split
  · exact .refl _
  · exact startsIn_sublist (List.drop_sublist 1 s.rest)

end Segment

theorem starts_segment (semicolons braces : Bool) (cs : List Component) :
    (segment semicolons braces cs).starts <+ startsIn cs := by
  fun_induction segment semicolons braces cs with
  | case1 => exact .slnil
  | case2 c rest hend => exact .refl _
  | case3 c rest hend block hblock =>
      have hcurly : (takeValue c rest).value.curly? = some block := by
        cases braces with
        | true => exact hblock
        | false => cases hblock
      have hvalue :
          startsIn block.values <+ (takeValue c rest).value.starts := by
        rw [Component.curly?_eq_some hcurly]
        exact Component.startsIn_inner_sublist block.component
      exact (hvalue.append_right _).trans (starts_takeValue c rest)
  | case4 c rest hend hblock more ih =>
      rw [Segment.starts, startsIn_cons, List.append_assoc]
      exact (ih.append_left _).trans (starts_takeValue c rest)

theorem starts_atSegment (cs : List Component) :
    (atSegment cs).starts <+ startsIn cs :=
  (Segment.starts_close _).trans (starts_segment true true cs)

theorem starts_ruleSegment (cs : List Component) :
    (ruleSegment cs).starts <+ startsIn cs :=
  (Segment.starts_close _).trans (starts_segment false true cs)

theorem starts_itemSegment (c : Component) (rest : List Component) :
    (itemSegment c rest).starts <+ startsIn (c :: rest) :=
  starts_segment true _ (c :: rest)

/-! ## Declarations -/

theorem trim_sublist {α : Type} (p : α → Bool) (xs : List α) :
    trim p xs <+ xs := by
  have hend : dropTrailing p (xs.dropWhile p) <+ xs.dropWhile p := by
    rw [dropTrailing, ← List.reverse_sublist, List.reverse_reverse]
    exact List.dropWhile_sublist p
  exact hend.trans (List.dropWhile_sublist p)

namespace Declaration

theorem splitImportant_sublist (values : List Component) :
    (splitImportant values).1 <+ values := by
  unfold splitImportant
  split
  · next word wordSpan mark markSpan before heq =>
      split
      · rw [← List.reverse_sublist, List.reverse_reverse, heq]
        exact ((List.dropWhile_sublist _).cons _).cons _
      · exact .refl _
  · exact .refl _

theorem starts_ofComponents {cs : List Component} {d : Declaration}
    (h : ofComponents cs = .ok d) :
    d.span.start :: startsIn d.values <+ startsIn cs := by
  unfold ofComponents at h
  split at h
  · next name span rest hname =>
      split at h
      · next colonSpan body hcolon =>
          simp only [] at h
          split at h
          · cases h
          · cases h
            have hvalues := (splitImportant_sublist _).trans
              (trim_sublist Component.isWhitespace body)
            have hbody : body <+ rest := by
              have hdrop :=
                List.dropWhile_sublist Component.isWhitespace (l := rest)
              rw [hcolon] at hdrop
              exact (List.sublist_cons_self _ _).trans hdrop
            have hall := List.dropWhile_sublist Component.isWhitespace (l := cs)
            rw [hname] at hall
            refine List.Sublist.trans ?_ (startsIn_sublist hall)
            exact (startsIn_sublist (hvalues.trans hbody)).cons_cons _
      · cases h
  · cases h

end Declaration

/-! ## Readers -/

namespace Outcome

variable {α β : Type}

/-- Whether what a reading returns, if it finishes, is `P`. -/
def Ensures (P : α → Prop) : Outcome α → Prop
  | done a _ => P a
  | halted _ _ => True

theorem Ensures.pure {P : α → Prop} {a : α} (ha : P a) :
    Ensures P (Pure.pure a : Outcome α) := ha

theorem Ensures.bind {P : α → Prop} {Q : β → Prop} {x : Outcome α}
    {f : α → Outcome β} (hx : Ensures P x) (hf : ∀ a, P a → Ensures Q (f a)) :
    Ensures Q (x >>= f) := by
  cases x with
  | halted e rest => trivial
  | done a errors =>
      have h := hf a hx
      show Ensures Q (Outcome.bind (done a errors) f)
      rw [Outcome.bind]
      cases hfa : f a with
      | done b more =>
          rw [hfa] at h
          exact h
      | halted e rest => trivial

theorem Ensures.mono {P Q : α → Prop} {x : Outcome α} (hx : Ensures P x)
    (hpq : ∀ a, P a → Q a) : Ensures Q x := by
  cases x with
  | done a errors => exact hpq a hx
  | halted e rest => trivial

theorem Ensures.inside {P : α → Prop} {x : Outcome α} (hx : Ensures P x)
    (rest : List Component) : Ensures P (x.inside rest) := by
  cases x with
  | done a errors => exact hx
  | halted e _ => trivial

/-- Reporting errors comes to nothing as far as what is returned goes. -/
theorem Ensures.report_then {Q : β → Prop} {f : Unit → Outcome β}
    (hf : Ensures Q (f ())) (mode : Mode) (errors : List Found) :
    Ensures Q (mode.report errors >>= f) := by
  refine Ensures.bind (P := fun _ => True) ?_ fun _ _ => hf
  cases mode.report errors <;> trivial

end Outcome

open Outcome (Ensures)

namespace Segment

variable {s : Segment} {mode : Mode} {nodes : Outcome (List Node)}

theorem starts_rule {children : List Node}
    (h : Node.startsAll children <+ s.blockStarts) (block : Block) :
    (Node.rule s.values block children).starts ++ startsIn s.rest
      <+ s.starts := by
  rw [Node.starts, List.append_assoc, starts]
  exact (h.append_right _).append_left _

theorem starts_atRule (keyword : Token)
    (h : Ensures (Node.startsAll · <+ s.blockStarts) nodes) :
    Ensures (fun n => n.starts ++ startsIn s.rest
      <+ keyword.span.start :: s.starts) (s.atRule mode keyword nodes) := by
  refine .report_then ?_ mode s.errors
  refine (h.inside s.rest).bind fun children hchildren => .pure ?_
  rw [Node.starts, List.cons_append, List.append_assoc, starts]
  exact ((hchildren.append_right _).append_left _).cons_cons _

theorem starts_rule? (h : Ensures (Node.startsAll · <+ s.blockStarts) nodes) :
    Ensures (fun n? => Node.startsAll n?.toList ++ startsIn s.rest <+ s.starts)
      (s.rule? mode nodes) := by
  have hrest : startsIn s.rest <+ s.starts :=
    (List.sublist_append_right _ _).trans (List.sublist_append_right _ _)
  refine .report_then ?_ mode s.errors
  split
  · next block hblock =>
      refine (h.inside s.rest).bind fun children hchildren => .pure ?_
      rw [Option.toList_some, Node.startsAll, Node.startsAll, List.append_nil]
      exact starts_rule hchildren block
  · exact .pure hrest
  · refine Ensures.report_then ?_ mode _
    exact Ensures.pure hrest

theorem starts_item (h : Ensures (Node.startsAll · <+ s.blockStarts) nodes) :
    Ensures (fun n => n.starts ++ startsIn s.rest <+ s.starts)
      (s.item mode nodes) := by
  have hrest : startsIn s.rest <+ s.blockStarts ++ startsIn s.rest :=
    List.sublist_append_right _ _
  refine .report_then ?_ mode s.errors
  split
  · next block hblock =>
      refine (h.inside s.rest).bind fun children hchildren => .pure ?_
      exact starts_rule hchildren block
  · split
    · next d hd =>
        refine .pure ?_
        rw [Node.starts]
        exact (Declaration.starts_ofComponents hd).append hrest
    · refine Ensures.report_then ?_ mode _
      refine Ensures.pure ?_
      rw [Node.starts]
      exact hrest.trans (List.sublist_append_right _ _)

end Segment

/-- A node, and then the nodes of what follows it. -/
theorem Outcome.Ensures.cons {x : Outcome Node} {y : Outcome (List Node)}
    {own after places : List Position}
    (hx : Ensures (fun n => n.starts ++ after <+ own) x)
    (hy : Ensures (Node.startsAll · <+ after) y) (hown : own <+ places) :
    Ensures (Node.startsAll · <+ places) (do return (← x) :: (← y)) := by
  refine hx.bind fun n hn => hy.bind fun nodes hnodes => .pure ?_
  rw [Node.startsAll]
  exact ((hnodes.append_left _).trans hn).trans hown

/-- The keyword of an at-rule stands before its segment. -/
theorem starts_keyword (c : Component) (rest : List Component) :
    c.leading.span.start :: (atSegment rest).starts
      <+ startsIn (c :: rest) := by
  have hleading : c.leading.span.start = c.start := by cases c <;> rfl
  rw [hleading, startsIn_cons, Component.starts_eq, List.cons_append]
  refine List.Sublist.cons_cons c.start ?_
  exact (starts_atSegment rest).trans (List.sublist_append_right _ _)

theorem starts_contents (mode : Mode) (s : Segment)
    (h : ∀ b, s.block = some b →
      Ensures (Node.startsAll · <+ startsIn b.values)
        (styleBlock mode b.values)) :
    Ensures (Node.startsAll · <+ s.blockStarts) (contents mode s.block) := by
  unfold Segment.blockStarts
  cases hblock : s.block with
  | none => exact .pure (List.nil_sublist _)
  | some b => exact h b hblock

theorem starts_styleBlock (mode : Mode) (cs : List Component) :
    Ensures (Node.startsAll · <+ startsIn cs) (styleBlock mode cs) := by
  induction cs using styleBlock.induct with
  | case1 =>
      rw [styleBlock_nil]
      exact .pure (List.nil_sublist _)
  | case2 c rest hskip ih =>
      rw [styleBlock_cons, if_pos hskip]
      exact ih.mono fun nodes h => h.trans
        (startsIn_sublist (List.sublist_cons_self c rest))
  | case3 c rest hskip heof =>
      rw [styleBlock_cons, if_neg hskip, if_pos heof]
      exact .pure (List.nil_sublist _)
  | case4 c rest hskip heof hat ihblock ihrest =>
      rw [styleBlock_cons, if_neg hskip, if_neg heof, if_pos hat]
      have hblock := starts_contents mode (atSegment rest) ihblock
      exact .cons (Segment.starts_atRule c.leading hblock) ihrest
        (starts_keyword c rest)
  | case5 c rest hskip heof hat ihblock ihrest =>
      rw [styleBlock_cons, if_neg hskip, if_neg heof, if_neg hat]
      have hblock := starts_contents mode (itemSegment c rest) ihblock
      exact .cons (Segment.starts_item hblock) ihrest
        (starts_itemSegment c rest)

theorem starts_contents_all (mode : Mode) (s : Segment) :
    Ensures (Node.startsAll · <+ s.blockStarts) (contents mode s.block) :=
  starts_contents mode s fun b _ => starts_styleBlock mode b.values

theorem starts_ruleList (mode : Mode) (outermost : Bool)
    (cs : List Component) :
    Ensures (Node.startsAll · <+ startsIn cs) (ruleList mode outermost cs) := by
  induction cs using ruleList.induct outermost with
  | case1 =>
      rw [ruleList]
      exact .pure (List.nil_sublist _)
  | case2 c rest hskip ih =>
      rw [ruleList, if_pos hskip]
      exact ih.mono fun nodes h => h.trans
        (startsIn_sublist (List.sublist_cons_self c rest))
  | case3 c rest hskip heof =>
      rw [ruleList, if_neg hskip, if_pos heof]
      exact .pure (List.nil_sublist _)
  | case4 c rest hskip heof hat s ih =>
      rw [ruleList, if_neg hskip, if_neg heof, if_pos hat]
      have hblock := starts_contents_all mode s
      exact .cons (Segment.starts_atRule c.leading hblock) ih
        (starts_keyword c rest)
  | case5 c rest hskip heof hat s ih =>
      rw [ruleList, if_neg hskip, if_neg heof, if_neg hat]
      have hblock := starts_contents_all mode s
      refine (Segment.starts_rule? hblock).bind fun n? hn =>
        ih.bind fun nodes hnodes => .pure ?_
      rw [Node.startsAll_append]
      exact ((hnodes.append_left _).trans hn).trans
        (starts_ruleSegment (c :: rest))

/-! ## Stylesheets -/

namespace Stylesheet

theorem starts_components (tokens : List Token) :
    startsIn (components tokens) <+ tokens.map fun t => t.span.start := by
  induction tokens with
  | nil => exact .slnil
  | cons t rest ih =>
      rw [components, List.filter_cons]
      split
      · exact ih.cons_cons t.span.start
      · exact ih.cons t.span.start

theorem starts_ofTokens {mode : Mode} {tokens : List Token} {sheet : Stylesheet}
    (h : ofTokens mode tokens = .ok sheet) :
    Node.startsAll sheet.rules <+ tokens.map fun t => t.span.start := by
  have hrules := starts_ruleList mode true (components tokens)
  unfold ofTokens ofComponents at h
  split at h
  · next rules errors heq =>
      cases h
      rw [heq] at hrules
      exact hrules.trans (starts_components tokens)
  · cases h

/-- The constructs of a stylesheet stand in the order of the source. -/
theorem starts_parse {mode : Mode} {source : Text} {sheet : Stylesheet}
    (h : parse mode source = .ok sheet) :
    (Node.startsAll sheet.rules).Pairwise (· < ·) := by
  have htokens := (Source.tiling_tokenize source).starts_increasing
  refine htokens.sublist ?_
  unfold parse ofLexed at h
  split at h
  · cases h
  · next mode _ _ _ =>
      cases hsheet : ofTokens mode (Source.tokenize source).tokens with
      | error e =>
          rw [hsheet] at h
          cases h
      | ok read =>
          have hread := starts_ofTokens hsheet
          rw [hsheet] at h
          cases h
          exact hread

end Stylesheet

namespace Audit

theorem starts_reports (a : Audit) (granted : List Feature.Key)
    (uses : List Occurrence) :
    (a.reports granted uses).map (fun d => d.span.start)
      <+ Occurrence.starts uses := by
  rw [reports, List.map_map]
  exact List.filter_sublist.map _

/-- The diagnostics of a source start at increasing positions, first by line and
then by column; so no two of them start in the same place. -/
theorem lint_starts_increasing {a : Audit} {mode : Mode} {source : Text}
    {diagnostics : List Diagnostic}
    (h : a.lint mode source = .ok diagnostics) :
    diagnostics.Pairwise fun d e => d.span.start < e.span.start := by
  unfold lint at h
  cases hsheet : Stylesheet.parse mode source with
  | error e =>
      rw [hsheet] at h
      cases h
  | ok sheet =>
      rw [hsheet] at h
      cases h
      rw [diagnostics_eq_reports, ← List.pairwise_map]
      have huses := Node.starts_occurrencesIn sheet.rules
      exact (Stylesheet.starts_parse hsheet).sublist
        ((a.starts_reports [] _).trans huses)

/-- A media condition, a selector in the rule inside and a property in that. -/
theorem lint_starts_increasing_nested :
    ∃ diagnostics,
      Audit.lint ⟨{}, .ofRecords ""
          [⟨"gap".toList, .property, .newly, none⟩,
            ⟨"has".toList, .selector, .newly, none⟩,
            ⟨"hover".toList, .mediaCondition, .newly, none⟩]⟩ .strict
        "@media (hover) \x7b\n  a:has(b) \x7b gap: 0 \x7d\n\x7d".toList =
          .ok diagnostics ∧
      diagnostics.map (fun d => d.span.start) = [⟨1, 9⟩, ⟨2, 4⟩, ⟨2, 14⟩] ∧
      diagnostics.Pairwise fun d e => d.span.start < e.span.start := by
  refine ⟨[⟨.mediaCondition, [("condition", .str "hover")], .str "widely",
      ⟨⟨1, 9⟩, ⟨1, 14⟩⟩⟩,
    ⟨.selector, [("selector", .str "has")], .str "widely",
      ⟨⟨2, 4⟩, ⟨2, 8⟩⟩⟩,
    ⟨.property, [("property", .str "gap")], .str "widely",
      ⟨⟨2, 14⟩, ⟨2, 17⟩⟩⟩], ?h, rfl, lint_starts_increasing ?h⟩
  decide +kernel

end Audit

end StyleAudit
