import StyleAudit.Audit.Walk

/-!
# Strict reading stops where tolerant reading records first

Both modes run the same readers, and a reader learns of the mode only through
`Mode.report`. So the two runs go side by side up to the first error; there the
strict one stops, while the tolerant one goes on and can only append to what it
has recorded. `Outcome.Agree` says this of a pair of outcomes, and the lemmas
below carry it through one reader after the other: sequencing, blocks inside
blocks, the three kinds of constructs, the contents of a block, the outermost
level.

The relation also carries a property of what was read without any error. For
nodes it is that no piece of them, at any depth, is malformed: a malformed piece
is only ever made in the same breath as an error is reported.

Errors of the tokens come first in either mode: the strict one is stopped by
them before the tree is read at all, the tolerant one puts them in front.
-/

namespace StyleAudit

namespace Node

mutual

/-- Whether no piece of a node is malformed. -/
def isIntact : Node → Bool
  | declaration _ => true
  | rule _ _ children => areIntact children
  | atRule _ _ _ _ children => areIntact children
  | malformed _ _ => false

/-- Whether no piece of some nodes is malformed. -/
def areIntact : List Node → Bool
  | [] => true
  | n :: rest => isIntact n && areIntact rest

end

theorem areIntact_cons {n : Node} {nodes : List Node} :
    areIntact (n :: nodes) = (n.isIntact && areIntact nodes) := by
  rw [areIntact]

theorem areIntact_append {nodes more : List Node} :
    areIntact (nodes ++ more) = (areIntact nodes && areIntact more) := by
  induction nodes with
  | nil => rw [List.nil_append, areIntact, Bool.true_and]
  | cons n nodes ih =>
      rw [List.cons_append, areIntact_cons, areIntact_cons, ih, Bool.and_assoc]

end Node

/-! ## Agreement of two outcomes -/

namespace Outcome

variable {α β : Type} {P : α → Prop}

/-- A strict and a tolerant outcome of the same reading. Either no error was
found, and both finished with one value, which is `P`; or the strict reading was
stopped by the first error that the tolerant one recorded. -/
inductive Agree (P : α → Prop) : Outcome α → Outcome α → Prop where
  | clean {a : α} (ha : P a) : Agree P (done a []) (done a [])
  | faulty {a : α} {e : SyntaxError} {more : List SyntaxError}
      {rest : List Component} : Agree P (halted e rest) (done a (e :: more))

/-- Sequencing keeps agreement. What follows an error is still read in tolerant
mode, so the second reading has to agree after any value; that the first value
is `P` may be used only for what was read without error. -/
theorem Agree.bind {x y : Outcome α} {f g : α → Outcome β} {Q : β → Prop}
    (h : Agree P x y) (hf : ∀ a, Agree (fun b => P a → Q b) (f a) (g a)) :
    Agree Q (x >>= f) (y >>= g) := by
  cases h with
  | @clean a ha =>
      have hfa := hf a
      show Agree Q (Outcome.bind (done a []) f) (Outcome.bind (done a []) g)
      simp only [Outcome.bind]
      generalize f a = fa, g a = ga at hfa ⊢
      cases hfa with
      | clean hb => exact .clean (hb ha)
      | faulty => exact .faulty
  | @faulty a e more rest =>
      have hfa := hf a
      show Agree Q (halted e rest) (Outcome.bind (done a (e :: more)) g)
      simp only [Outcome.bind]
      generalize f a = fa, g a = ga at hfa ⊢
      cases hfa with
      | clean => exact .faulty
      | faulty => exact .faulty

theorem Agree.pure {a : α} (ha : P a) :
    Agree P (Pure.pure a : Outcome α) (Pure.pure a : Outcome α) := .clean ha

theorem Agree.inside {x y : Outcome α} (h : Agree P x y)
    (rest : List Component) : Agree P (x.inside rest) (y.inside rest) := by
  cases h with
  | clean ha => exact .clean ha
  | faulty => exact .faulty

/-- The one place where the modes part. -/
theorem Agree.report (errors : List Found) :
    Agree (fun _ => errors = []) (Mode.strict.report errors)
      (Mode.tolerant.report errors) := by
  cases errors with
  | nil => exact .clean rfl
  | cons e more => exact .faulty

/-- A reading that reports an error promises nothing about its value. -/
theorem Agree.report_then {found : Found} {a : α} :
    Agree P (do Mode.strict.report [found]; return a)
      (do Mode.tolerant.report [found]; return a) :=
  Agree.bind (Agree.report [found]) fun _ =>
    Agree.pure fun h => absurd h (List.cons_ne_nil _ _)

end Outcome

/-! ## The readers -/

open Outcome (Agree)

namespace Segment

variable {strict tolerant : Outcome (List Node)}

theorem atRule_agree (s : Segment) (keyword : Token)
    (h : Agree (Node.areIntact · = true) strict tolerant) :
    Agree (Node.isIntact · = true) (s.atRule .strict keyword strict)
      (s.atRule .tolerant keyword tolerant) := by
  unfold Segment.atRule
  refine Agree.bind (Agree.report s.errors) fun _ => ?_
  refine Agree.bind (h.inside s.rest) fun children => ?_
  refine Agree.pure fun hchildren _ => ?_
  rw [Node.isIntact]
  exact hchildren

theorem rule?_agree (s : Segment)
    (h : Agree (Node.areIntact · = true) strict tolerant) :
    Agree (fun node? => Node.areIntact node?.toList = true)
      (s.rule? .strict strict) (s.rule? .tolerant tolerant) := by
  unfold Segment.rule?
  refine Agree.bind (Agree.report s.errors) fun _ => ?_
  split
  · refine Agree.bind (h.inside s.rest) fun children => ?_
    refine Agree.pure fun hchildren _ => ?_
    rw [Option.toList_some, Node.areIntact_cons, Node.isIntact, hchildren]
    rfl
  · refine Agree.pure fun _ => ?_
    rw [Option.toList_none, Node.areIntact]
  · exact Agree.report_then

theorem item_agree (s : Segment)
    (h : Agree (Node.areIntact · = true) strict tolerant) :
    Agree (Node.isIntact · = true) (s.item .strict strict)
      (s.item .tolerant tolerant) := by
  unfold Segment.item
  refine Agree.bind (Agree.report s.errors) fun _ => ?_
  split
  · refine Agree.bind (h.inside s.rest) fun children => ?_
    refine Agree.pure fun hchildren _ => ?_
    rw [Node.isIntact]
    exact hchildren
  · split
    · exact Agree.pure fun _ => by rw [Node.isIntact]
    · exact Agree.report_then

end Segment

/-- One construct and all that follow it. -/
theorem Outcome.Agree.cons {x y : Outcome Node} {xs ys : Outcome (List Node)}
    (h : Agree (Node.isIntact · = true) x y)
    (hs : Agree (Node.areIntact · = true) xs ys) :
    Agree (Node.areIntact · = true) (do return (← x) :: (← xs))
      (do return (← y) :: (← ys)) := by
  refine Agree.bind h fun node => Agree.bind hs fun nodes => ?_
  refine Agree.pure fun hnodes hnode => ?_
  rw [Node.areIntact_cons, hnode, hnodes]
  rfl

theorem contents_agree {block : Option Block}
    (h : ∀ b, block = some b → Agree (Node.areIntact · = true)
      (styleBlock .strict b.values) (styleBlock .tolerant b.values)) :
    Agree (Node.areIntact · = true) (contents .strict block)
      (contents .tolerant block) := by
  cases block with
  | none => exact Agree.pure (by rw [Node.areIntact])
  | some b => exact h b rfl

theorem styleBlock_agree (cs : List Component) :
    Agree (Node.areIntact · = true) (styleBlock .strict cs)
      (styleBlock .tolerant cs) := by
  induction cs using styleBlock.induct with
  | case1 =>
      rw [styleBlock_nil, styleBlock_nil]
      exact Agree.pure (by rw [Node.areIntact])
  | case2 c rest hskip ih =>
      rw [styleBlock_cons, styleBlock_cons, if_pos hskip, if_pos hskip]
      exact ih
  | case3 c rest hskip heof =>
      rw [styleBlock_cons, styleBlock_cons, if_neg hskip, if_neg hskip,
        if_pos heof, if_pos heof]
      exact Agree.pure (by rw [Node.areIntact])
  | case4 c rest hskip heof hat ihblock ihrest =>
      rw [styleBlock_cons, styleBlock_cons, if_neg hskip, if_neg hskip,
        if_neg heof, if_neg heof, if_pos hat, if_pos hat]
      exact Agree.cons
        ((atSegment rest).atRule_agree c.leading (contents_agree ihblock))
        ihrest
  | case5 c rest hskip heof hat ihblock ihrest =>
      rw [styleBlock_cons, styleBlock_cons, if_neg hskip, if_neg hskip,
        if_neg heof, if_neg heof, if_neg hat, if_neg hat]
      exact Agree.cons
        ((itemSegment c rest).item_agree (contents_agree ihblock)) ihrest

theorem contents_agree_all (block : Option Block) :
    Agree (Node.areIntact · = true) (contents .strict block)
      (contents .tolerant block) :=
  contents_agree fun b _ => styleBlock_agree b.values

theorem ruleList_agree (outermost : Bool) (cs : List Component) :
    Agree (Node.areIntact · = true) (ruleList .strict outermost cs)
      (ruleList .tolerant outermost cs) := by
  induction cs using ruleList.induct outermost with
  | case1 =>
      rw [ruleList, ruleList]
      exact Agree.pure (by rw [Node.areIntact])
  | case2 c rest hskip ih =>
      rw [ruleList, ruleList, if_pos hskip, if_pos hskip]
      exact ih
  | case3 c rest hskip heof =>
      rw [ruleList, ruleList, if_neg hskip, if_neg hskip, if_pos heof,
        if_pos heof]
      exact Agree.pure (by rw [Node.areIntact])
  | case4 c rest hskip heof hat s ih =>
      rw [ruleList, ruleList, if_neg hskip, if_neg hskip, if_neg heof,
        if_neg heof, if_pos hat, if_pos hat]
      exact Agree.cons (s.atRule_agree c.leading (contents_agree_all s.block)) ih
  | case5 c rest hskip heof hat s ih =>
      rw [ruleList, ruleList, if_neg hskip, if_neg hskip, if_neg heof,
        if_neg heof, if_neg hat, if_neg hat]
      refine Agree.bind (s.rule?_agree (contents_agree_all s.block))
        fun node? => Agree.bind ih fun nodes => ?_
      refine Agree.pure fun hnodes hnode => ?_
      rw [Node.areIntact_append, hnode, hnodes]
      rfl

/-! ## Stylesheets -/

namespace Stylesheet

/-- What agreement means to a caller. The tolerant reading gives a stylesheet.
If no error is recorded in it the strict reading gives the very same one, in
which nothing is malformed; otherwise the strict reading gives the first error
recorded. -/
def Agree (strict tolerant : Except SyntaxError Stylesheet) : Prop :=
  ∃ sheet, tolerant = .ok sheet ∧
    (sheet.errors = [] → strict = .ok sheet ∧ Node.areIntact sheet.rules = true) ∧
    ∀ error, sheet.errors.head? = some error → strict = .error error

theorem ofComponents_agree (cs : List Component) :
    Agree (ofComponents .strict cs) (ofComponents .tolerant cs) := by
  have h := ruleList_agree true cs
  unfold ofComponents
  generalize ruleList .strict true cs = x at h ⊢
  generalize ruleList .tolerant true cs = y at h ⊢
  cases h with
  | @clean rules hrules =>
      refine ⟨⟨rules, []⟩, rfl, fun _ => ⟨rfl, hrules⟩, ?_⟩
      intro error h
      cases h
  | @faulty rules e more rest =>
      refine ⟨⟨rules, e :: more⟩, rfl, ?_, ?_⟩
      · intro h
        cases h
      · intro error h
        cases h
        rfl

theorem ofTokens_agree (tokens : List Token) :
    Agree (ofTokens .strict tokens) (ofTokens .tolerant tokens) :=
  ofComponents_agree (components tokens)

/-- Errors of the tokens come before those of the tree in both modes. -/
theorem ofLexed_agree (lexed : Source.Tokens) :
    Agree (ofLexed .strict lexed) (ofLexed .tolerant lexed) := by
  obtain ⟨tokens, errors⟩ := lexed
  obtain ⟨sheet, htolerant, hclean, hfaulty⟩ := ofTokens_agree tokens
  have hok : ofLexed .tolerant ⟨tokens, errors⟩
      = .ok { sheet with errors := errors ++ sheet.errors } := by
    simp only [ofLexed, htolerant]
    rfl
  cases errors with
  | nil =>
      have hstrict : ofLexed .strict ⟨tokens, []⟩ = ofTokens .strict tokens := by
        simp only [ofLexed]
        cases ofTokens .strict tokens <;> rfl
      rw [hstrict]
      exact ⟨sheet, hok, hclean, hfaulty⟩
  | cons e more =>
      refine ⟨_, hok, ?_, ?_⟩
      · intro h
        cases h
      · intro error h
        cases h
        rfl

end Stylesheet

/-- Linting goes by the stylesheet that was read. -/
theorem Audit.lint_agree (a : Audit) (source : Text) :
    ∃ sheet, Stylesheet.parse .tolerant source = .ok sheet ∧
      a.lint .tolerant source = .ok (a.diagnostics sheet) ∧
      (sheet.errors = [] → a.lint .strict source = a.lint .tolerant source) ∧
      ∀ error, sheet.errors.head? = some error →
        a.lint .strict source = .error error := by
  obtain ⟨sheet, htolerant, hclean, hfaulty⟩ :=
    Stylesheet.ofLexed_agree (Source.tokenize source)
  refine ⟨sheet, htolerant, ?_, fun h => ?_, fun error h => ?_⟩
  · rw [Audit.lint, Stylesheet.parse, htolerant]
    rfl
  · rw [Audit.lint, Audit.lint, Stylesheet.parse, Stylesheet.parse,
      (hclean h).1, htolerant]
  · rw [Audit.lint, Stylesheet.parse, hfaulty error h]
    rfl

/-- Strict and tolerant reading agree on every source and on every list of
tokens, and so do the two ways of linting a source: where tolerant reading
records no error both give the same diagnostics, and elsewhere strict linting
gives the first error recorded. -/
theorem strict_agrees_with_tolerant :
    (∀ source, Stylesheet.Agree (Stylesheet.parse .strict source)
      (Stylesheet.parse .tolerant source)) ∧
    (∀ tokens, Stylesheet.Agree (Stylesheet.ofTokens .strict tokens)
      (Stylesheet.ofTokens .tolerant tokens)) ∧
    ∀ (a : Audit) (source : Text),
      ∃ sheet, Stylesheet.parse .tolerant source = .ok sheet ∧
        a.lint .tolerant source = .ok (a.diagnostics sheet) ∧
        (sheet.errors = [] →
          a.lint .strict source = a.lint .tolerant source) ∧
        ∀ error, sheet.errors.head? = some error →
          a.lint .strict source = .error error :=
  ⟨fun source => Stylesheet.ofLexed_agree (Source.tokenize source),
    Stylesheet.ofTokens_agree, Audit.lint_agree⟩

end StyleAudit
