import StyleAudit.Proofs.ConditionReading

/-!
# Well-formed conditions are read back

An expression of support is a test, a negation, or two or more operands joined
by one word. It can be written in many ways: words in letters of any case,
blanks between all parts, and parentheses around an operand or around the whole
as often as one likes; only an operand that is no test needs them. `Written` are
these ways.

Reading any of them gives back the expression, the parentheses having vanished.
The proof goes along the rules of writing. What has to be carried along is that
an operand is never a token and that no phrase starts like a declaration: that
is how the reader tells the parentheses of a group from those of a test.

What a condition asserts can be trusted: whenever the expression holds, so do
all the keys asserted. This is a matter of the expression alone.
-/

namespace StyleAudit.Condition

/-! ## Expressions -/

/-- What a condition tests: a declaration, a selector, or something else that a
function names. -/
inductive Test where
  | declaration (name : Text) (span : Span) (values : List Component)
  | selector (values : List Component)
  | general (name : Text) (values : List Component)
      (hname : Text.lower name ≠ "selector".toList)

/-- The keys that a test stands for. -/
def Test.keys : Test → List Feature.Key
  | declaration name span values =>
      keysOf (Feature.ofDeclaration ⟨name, span, values, false⟩)
  | selector values => keysOf (Feature.selectors values)
  | general _ _ _ => []

/-- The words that join operands. -/
inductive Joiner where
  | and
  | or
deriving DecidableEq, Repr

/-- Whether a component is the word, in letters of any case. -/
def Joiner.isWord : Joiner → Component → Bool
  | and => isAnd
  | or => isOr

/-- The condition of some operands that the word joins. -/
def Joiner.condition : Joiner → List Condition → Condition
  | and => Condition.and
  | or => Condition.or

/-- An expression of support: a test, a negation, or two or more operands that
one word joins. -/
inductive Expression where
  | test (t : Test)
  | not (operand : Expression)
  | joined (joiner : Joiner) (first second : Expression)
      (rest : List Expression)

namespace Expression

mutual

/-- The condition that an expression is. -/
def condition : Expression → Condition
  | test t => .test t.keys
  | not operand => .not operand.condition
  | joined joiner first second rest =>
      joiner.condition (first.condition :: second.condition :: conditions rest)

/-- The conditions that some expressions are. -/
def conditions : List Expression → List Condition
  | [] => []
  | e :: rest => e.condition :: conditions rest

end

mutual

/-- Whether an expression holds, given which tests pass. -/
def holds (passes : Test → Bool) : Expression → Bool
  | test t => passes t
  | not operand => !operand.holds passes
  | joined .and first second rest =>
      first.holds passes && (second.holds passes && allHold passes rest)
  | joined .or first second rest =>
      first.holds passes || (second.holds passes || anyHolds passes rest)

/-- Whether all of some expressions hold. -/
def allHold (passes : Test → Bool) : List Expression → Bool
  | [] => true
  | e :: rest => e.holds passes && allHold passes rest

/-- Whether one of some expressions holds. -/
def anyHolds (passes : Test → Bool) : List Expression → Bool
  | [] => false
  | e :: rest => e.holds passes || anyHolds passes rest

end

mutual

theorem asserted_supported {passes : Test → Bool}
    {supported : Feature.Key → Prop}
    (hpasses : ∀ t, passes t = true → ∀ key ∈ t.keys, supported key)
    (e : Expression) (h : e.holds passes = true) :
    ∀ key ∈ e.condition.asserted, supported key := by
  match e with
  | .test t =>
      rw [holds] at h
      rw [condition, asserted]
      exact hpasses t h
  | .not operand =>
      rw [condition, asserted]
      exact nofun
  | .joined .or first second rest =>
      rw [condition, Joiner.condition, asserted]
      exact nofun
  | .joined .and first second rest =>
      rw [holds, Bool.and_eq_true, Bool.and_eq_true] at h
      rw [condition, Joiner.condition, asserted, assertedAll, assertedAll]
      intro key hkey
      rw [List.mem_append, List.mem_append] at hkey
      rcases hkey with hfirst | hsecond | hrest
      · exact asserted_supported hpasses first h.1 key hfirst
      · exact asserted_supported hpasses second h.2.1 key hsecond
      · exact assertedAll_supported hpasses rest h.2.2 key hrest

theorem assertedAll_supported {passes : Test → Bool}
    {supported : Feature.Key → Prop}
    (hpasses : ∀ t, passes t = true → ∀ key ∈ t.keys, supported key)
    (es : List Expression) (h : allHold passes es = true) :
    ∀ key ∈ assertedAll (conditions es), supported key := by
  match es with
  | [] =>
      rw [conditions, assertedAll]
      exact nofun
  | e :: rest =>
      rw [allHold, Bool.and_eq_true] at h
      rw [conditions, assertedAll]
      intro key hkey
      rcases List.mem_append.1 hkey with he | hrest
      · exact asserted_supported hpasses e h.1 key he
      · exact assertedAll_supported hpasses rest h.2 key hrest

end

end Expression

/-! ## Ways of writing -/

/-- The components that write a test. A declaration stands in parentheses, with
blanks around its parts; a selector is the argument of a function of that
name. -/
inductive Test.Written : Test → Component → Prop where
  | declaration {before between gap after : List Component}
      (name : Text) (span : Span) (values : List Component)
      (opening colon : Span) (closing : Option Span)
      (hbefore : Blank before) (hbetween : Blank between) (hgap : Blank gap)
      (hafter : Blank after) :
      Written (.declaration name span values)
        (.block .round opening
          (before ++ .token ⟨.ident name, span⟩ ::
            (between ++ .token ⟨.colon, colon⟩ :: (gap ++ (values ++ after))))
          closing)
  | selector {name : Text} (hname : Text.lower name = "selector".toList)
      (head : Span) (values : List Component) (closing : Option Span) :
      Written (.selector values) (.function name head values closing)
  | general {name : Text} (hname : Text.lower name ≠ "selector".toList)
      (head : Span) (values : List Component) (closing : Option Span) :
      Written (.general name values hname) (.function name head values closing)

/-- Components, and what they write: a whole prelude or the inside of a group,
one operand, or one or more operands that a word joins. -/
inductive Phrase where
  | whole (e : Expression) (cs : List Component)
  | operand (e : Expression) (c : Component)
  | operands (joiner : Joiner) (es : List Expression) (cs : List Component)

/-- The ways of writing expressions. -/
inductive Written : Phrase → Prop where
  | test {t : Test} {c : Component} (h : t.Written c) : Written (.operand (.test t) c)
  | group {e : Expression} {cs : List Component} (opening : Span)
      (closing : Option Span) (h : Written (.whole e cs)) :
      Written (.operand e (.block .round opening cs closing))
  | alone {e : Expression} {c : Component} {before after : List Component}
      (hbefore : Blank before) (hafter : Blank after)
      (h : Written (.operand e c)) : Written (.whole e (before ++ c :: after))
  | not {e : Expression} {c word : Component}
      {before between after : List Component} (hword : isNot word = true)
      (hbefore : Blank before) (hbetween : Blank between) (hafter : Blank after)
      (h : Written (.operand e c)) :
      Written (.whole (.not e) (before ++ word :: (between ++ c :: after)))
  | joined {joiner : Joiner} {first second : Expression}
      {rest : List Expression} {cs : List Component}
      (h : Written (.operands joiner (first :: second :: rest) cs)) :
      Written (.whole (.joined joiner first second rest) cs)
  | last {e : Expression} {c : Component} {before after : List Component}
      (joiner : Joiner) (hbefore : Blank before) (hafter : Blank after)
      (h : Written (.operand e c)) :
      Written (.operands joiner [e] (before ++ c :: after))
  | cons {joiner : Joiner} {e : Expression} {es : List Expression}
      {c word : Component} {before after cs : List Component}
      (hword : joiner.isWord word = true) (hbefore : Blank before)
      (hafter : Blank after) (h : Written (.operand e c))
      (hs : Written (.operands joiner es cs)) :
      Written (.operands joiner (e :: es)
        (before ++ c :: (after ++ word :: cs)))

/-! ## Every expression can be written -/

theorem Joiner.exists_word (joiner : Joiner) :
    ∃ word, joiner.isWord word = true := by
  cases joiner with
  | and => exact ⟨.token ⟨.ident "and".toList, default⟩, by decide +kernel⟩
  | or => exact ⟨.token ⟨.ident "or".toList, default⟩, by decide +kernel⟩

theorem Test.exists_written (t : Test) : ∃ c, t.Written c := by
  cases t with
  | declaration name span values =>
      exact ⟨_, .declaration name span values default default none
        Blank.nil Blank.nil Blank.nil Blank.nil⟩
  | selector values =>
      have hname : Text.lower "selector".toList = "selector".toList := by
        decide +kernel
      exact ⟨_, .selector hname default values none⟩
  | general name values hname => exact ⟨_, .general hname default values none⟩

theorem exists_written_operands (joiner : Joiner) (e : Expression)
    (es : List Expression) (h : ∀ e' ∈ e :: es, ∃ c, Written (.operand e' c)) :
    ∃ cs, Written (.operands joiner (e :: es) cs) := by
  obtain ⟨c, hc⟩ := h e List.mem_cons_self
  induction es generalizing e c with
  | nil => exact ⟨_, .last joiner Blank.nil Blank.nil hc⟩
  | cons next es ih =>
      have hrest : ∀ e' ∈ next :: es, ∃ c, Written (.operand e' c) :=
        fun e' he' => h e' (List.mem_cons_of_mem e he')
      obtain ⟨d, hd⟩ := hrest next List.mem_cons_self
      obtain ⟨cs, hcs⟩ := ih next hrest d hd
      obtain ⟨word, hword⟩ := joiner.exists_word
      exact ⟨_, .cons hword Blank.nil Blank.nil hc hcs⟩

mutual

theorem exists_written_operand (e : Expression) :
    ∃ c, Written (.operand e c) := by
  match e with
  | .test t =>
      obtain ⟨c, hc⟩ := t.exists_written
      exact ⟨c, .test hc⟩
  | .not operand =>
      obtain ⟨c, hc⟩ := exists_written_operand operand
      have hword : isNot (.token ⟨.ident "not".toList, default⟩) = true := by
        decide +kernel
      exact ⟨_, .group default none
        (.not hword Blank.nil Blank.nil Blank.nil hc)⟩
  | .joined joiner first second rest =>
      have hall : ∀ e ∈ first :: second :: rest,
          ∃ c, Written (.operand e c) :=
        List.forall_mem_cons.2 ⟨exists_written_operand first,
          List.forall_mem_cons.2 ⟨exists_written_operand second,
            exists_written_each rest⟩⟩
      obtain ⟨cs, hcs⟩ := exists_written_operands joiner first _ hall
      exact ⟨_, .group default none (.joined hcs)⟩

theorem exists_written_each (es : List Expression) :
    ∀ e ∈ es, ∃ c, Written (.operand e c) := by
  match es with
  | [] => exact nofun
  | first :: rest =>
      exact List.forall_mem_cons.2
        ⟨exists_written_operand first, exists_written_each rest⟩

end

/-! ## Reading tests -/

section

variable {α β : Type} {p : α → Bool} {f : α → List β}
  (h : ∀ a, p a = true → f a = [])
include h

theorem flatMap_dropWhile (xs : List α) :
    (xs.dropWhile p).flatMap f = xs.flatMap f := by
  induction xs with
  | nil => rfl
  | cons x xs ih =>
      rw [List.dropWhile_cons]
      split
      · next hx => rw [ih, List.flatMap_cons, h x hx, List.nil_append]
      · rfl

/-- What contributes nothing may be trimmed. -/
theorem flatMap_trim (xs : List α) : (trim p xs).flatMap f = xs.flatMap f := by
  have hreverse : ∀ a, p a = true → (List.reverse ∘ f) a = [] := by
    intro a ha
    rw [Function.comp_apply, h a ha, List.reverse_nil]
  rw [trim, dropTrailing, List.flatMap_reverse, flatMap_dropWhile hreverse,
    ← List.flatMap_reverse, List.reverse_reverse, flatMap_dropWhile h]

end

/-- Blanks in a value are no features. -/
theorem ofValue_of_isWhitespace (property : Text) {c : Component}
    (h : c.isWhitespace = true) : Feature.ofValue property c = [] := by
  cases c with
  | function => cases h
  | block => cases h
  | token t =>
      obtain ⟨kind, span⟩ := t
      cases kind with
      | whitespace text => rfl
      | _ => cases h

theorem declaration?_written {before between : List Component} (name : Text)
    (span colon : Span) (body : List Component) (hbefore : Blank before)
    (hbetween : Blank between) :
    declaration? (before ++ .token ⟨.ident name, span⟩ ::
      (between ++ .token ⟨.colon, colon⟩ :: body)) =
        some ⟨name, span, trim Component.isWhitespace body, false⟩ := by
  rw [declaration?_blank_append hbefore, declaration?,
    List.dropWhile_cons_of_neg Bool.false_ne_true]
  simp only []
  rw [hbetween.dropWhile_append, List.dropWhile_cons_of_neg Bool.false_ne_true]

/-- A test is written as a component that is no token, and is read back. -/
theorem Test.Written.read {t : Test} {c : Component} (h : t.Written c) :
    c.kind? = none ∧ ofTerm c = .test t.keys := by
  cases h with
  | @declaration before between gap after name span values opening colon closing
      hbefore hbetween hgap hafter =>
      refine ⟨rfl, ?_⟩
      have hblank (bs : List Component) (h : Blank bs) :
          bs.flatMap (Feature.ofValue name) = [] :=
        List.flatMap_eq_nil_iff.2 fun c hc => ofValue_of_isWhitespace name (h c hc)
      rw [ofTerm, declaration?_written name span colon _ hbefore hbetween]
      simp only [Test.keys, Feature.ofDeclaration]
      rw [flatMap_trim fun _ => ofValue_of_isWhitespace name, List.flatMap_append,
        List.flatMap_append, hblank gap hgap, hblank after hafter,
        List.nil_append, List.append_nil]
  | selector hname head values closing =>
      exact ⟨rfl, by rw [ofTerm, if_pos hname, Test.keys]⟩
  | general hname head values closing =>
      exact ⟨rfl, by rw [ofTerm, if_neg hname, Test.keys]⟩

/-! ## Reading phrases -/

/-- What is true of operands that a word joins, as components. -/
structure OperandsRead (joiner : Joiner) (es : List Expression)
    (cs : List Component) : Prop where
  terms : ofTerms cs = Expression.conditions es
  starts : ∃ before c rest, Blank before ∧ c.kind? = none ∧
    cs = before ++ c :: rest
  words : ∀ c ∈ cs, isOperator c = true → joiner.isWord c = true
  joined : 2 ≤ es.length → ∃ c ∈ cs, isOperator c = true

/-- What reading a phrase comes to. -/
def Phrase.Read : Phrase → Prop
  | whole e cs => ofComponents cs = e.condition ∧ declaration? cs = none
  | operand e c => c.kind? = none ∧ ofTerm c = e.condition
  | operands joiner es cs => OperandsRead joiner es cs

theorem ofTerms_alone {before after : List Component} {c : Component}
    (hbefore : Blank before) (hc : c.kind? = none) :
    ofTerms (before ++ c :: after) = ofTerm c :: ofTerms after := by
  rw [ofTerms_append, ofTerms_blank hbefore, List.nil_append,
    ofTerms_term after (isWhitespace_of_kind?_none hc)
      (isOperator_of_kind?_none hc)]

theorem Joiner.isOperator_of_isWord {joiner : Joiner} {c : Component}
    (h : joiner.isWord c = true) : isOperator c = true := by
  cases joiner with
  | and => exact Bool.or_eq_true_iff.2 (.inl h)
  | or => exact Bool.or_eq_true_iff.2 (.inr h)

theorem OperandsRead.last {joiner : Joiner} {e : Expression} {c : Component}
    {before after : List Component} (hbefore : Blank before)
    (hafter : Blank after) (hc : c.kind? = none)
    (hread : ofTerm c = e.condition) :
    OperandsRead joiner [e] (before ++ c :: after) where
  terms := by
    rw [ofTerms_alone hbefore hc, ofTerms_blank hafter, hread,
      Expression.conditions, Expression.conditions]
  starts := ⟨before, c, after, hbefore, hc, rfl⟩
  words := by
    intro d hd hword
    have hblank : d.isWhitespace = true ∨ d = c := by
      rcases List.mem_append.1 hd with hd | hd
      · exact .inl (hbefore d hd)
      · rcases List.mem_cons.1 hd with hd | hd
        · exact .inr hd
        · exact .inl (hafter d hd)
    rcases hblank with hblank | rfl
    · rw [isOperator_eq_false_of_isWhitespace hblank] at hword
      cases hword
    · rw [isOperator_of_kind?_none hc] at hword
      cases hword
  joined := nofun

theorem OperandsRead.cons {joiner : Joiner} {e : Expression}
    {es : List Expression} {c word : Component}
    {before after cs : List Component} (hword : joiner.isWord word = true)
    (hbefore : Blank before) (hafter : Blank after) (hc : c.kind? = none)
    (hread : ofTerm c = e.condition) (h : OperandsRead joiner es cs) :
    OperandsRead joiner (e :: es) (before ++ c :: (after ++ word :: cs)) where
  terms := by
    have hskip : (word.isWhitespace || isOperator word) = true := by
      rw [Joiner.isOperator_of_isWord hword, Bool.or_true]
    rw [ofTerms_alone hbefore hc, ofTerms_append, ofTerms_blank hafter,
      List.nil_append, ofTerms_skip cs hskip, h.terms, hread,
      Expression.conditions]
  starts := ⟨before, c, after ++ word :: cs, hbefore, hc, rfl⟩
  words := by
    intro d hd hoperator
    rw [List.mem_append, List.mem_cons, List.mem_append, List.mem_cons] at hd
    rcases hd with hd | rfl | hd | rfl | hd
    · rw [isOperator_eq_false_of_isWhitespace (hbefore d hd)] at hoperator
      cases hoperator
    · rw [isOperator_of_kind?_none hc] at hoperator
      cases hoperator
    · rw [isOperator_eq_false_of_isWhitespace (hafter d hd)] at hoperator
      cases hoperator
    · exact hword
    · exact h.words d hd hoperator
  joined := fun _ =>
    ⟨word, by simp, Joiner.isOperator_of_isWord hword⟩

/-- Two or more operands are read as joined by the word between them. -/
theorem OperandsRead.whole {joiner : Joiner} {first second : Expression}
    {rest : List Expression} {cs : List Component}
    (h : OperandsRead joiner (first :: second :: rest) cs) :
    ofComponents cs = (Expression.joined joiner first second rest).condition ∧
      declaration? cs = none := by
  obtain ⟨before, c, more, hbefore, hc, rfl⟩ := h.starts
  obtain ⟨word, hmem, hword⟩ := h.joined (by simp)
  have hjoin : ofComponents (before ++ c :: more) =
      join (ofTerms (before ++ c :: more)) (before ++ c :: more) := by
    rw [ofComponents_blank_append hbefore, ofComponents_join more
      (isWhitespace_of_kind?_none hc) (isWord_of_kind?_none _ hc),
      join_blank_append hbefore, ofTerms_append, ofTerms_blank hbefore,
      List.nil_append]
  refine ⟨?_, ?_⟩
  · rw [hjoin, h.terms, Expression.conditions, Expression.conditions,
      Expression.condition]
    unfold join
    cases joiner with
    | or =>
        have hor : (before ++ c :: more).any isOr = true :=
          List.any_eq_true.2 ⟨word, hmem, h.words word hmem hword⟩
        rw [if_pos hor]
        rfl
    | and =>
        have hor : ¬ (before ++ c :: more).any isOr = true := by
          intro hor
          obtain ⟨d, hd, hisOr⟩ := List.any_eq_true.1 hor
          have hisAnd := h.words d hd (isOperator_of_isOr hisOr)
          rw [isOr, isWord_eq_false_of_ne hisAnd (by decide)] at hisOr
          cases hisOr
        rw [if_neg hor]
        rfl
  · rw [declaration?_blank_append hbefore, declaration?_cons_term more hc]

/-- Whatever is written is read back. -/
theorem Written.read {phrase : Phrase} (h : Written phrase) : phrase.Read := by
  induction h with
  | test h =>
      rw [Phrase.Read, Expression.condition]
      exact h.read
  | group opening closing h ih =>
      exact ⟨rfl, by rw [ofTerm, ih.2, ih.1]⟩
  | alone hbefore hafter h ih =>
      refine ⟨?_, ?_⟩
      · rw [ofComponents_alone hbefore hafter ih.1, ih.2]
      · rw [declaration?_blank_append hbefore, declaration?_cons_term _ ih.1]
  | not hword hbefore hbetween hafter h ih =>
      refine ⟨?_, ?_⟩
      · rw [ofComponents_blank_append hbefore, ofComponents_not _ hword,
          ofComponents_alone hbetween hafter ih.1, ih.2, Expression.condition]
      · rw [declaration?_blank_append hbefore,
          declaration?_word_term _ (isNot_ne_whitespace hword) hbetween ih.1]
  | joined h ih => exact ih.whole
  | last joiner hbefore hafter h ih => exact .last hbefore hafter ih.1 ih.2
  | cons hword hbefore hafter h hs ih ihs =>
      exact .cons hword hbefore hafter ih.1 ih.2 ihs

/-- Every expression of support can be written, and however it is written it is
read back as it is, parentheses aside. What is asserted is sound: for all tests
that pass only if the keys they stand for are supported, if the expression holds
then every key asserted is supported. -/
theorem written_expression_read (e : Expression) :
    (∃ cs, Written (.whole e cs)) ∧
    ∀ cs, Written (.whole e cs) →
      ofComponents cs = e.condition ∧
      ∀ (passes : Test → Bool) (supported : Feature.Key → Prop),
        (∀ t, passes t = true → ∀ key ∈ t.keys, supported key) →
        e.holds passes = true →
        ∀ key ∈ (ofComponents cs).asserted, supported key := by
  obtain ⟨c, hc⟩ := exists_written_operand e
  refine ⟨⟨_, .alone Blank.nil Blank.nil hc⟩, fun cs hcs => ?_⟩
  have hread : ofComponents cs = e.condition := hcs.read.1
  refine ⟨hread, fun passes supported hpasses hholds => ?_⟩
  rw [hread]
  exact Expression.asserted_supported hpasses e hholds

/-- In `((gap: normal)) AND (Not SELECTOR(:has))` the doubled parentheses vanish
and only the first test is asserted. -/
theorem written_expression_read_negation :
    ofComponents [groupOf [testOf "gap" "normal"], wordOf "AND",
        groupOf [wordOf "Not", .function "SELECTOR".toList default
          [.token ⟨.colon, default⟩, wordOf "has"] none]] =
      (Expression.joined .and
        (.test (.declaration "gap".toList default [wordOf "normal"]))
        (.not (.test (.selector [.token ⟨.colon, default⟩, wordOf "has"])))
        []).condition ∧
    ∀ key ∈ (ofComponents [groupOf [testOf "gap" "normal"], wordOf "AND",
        groupOf [wordOf "Not", .function "SELECTOR".toList default
          [.token ⟨.colon, default⟩, wordOf "has"] none]]).asserted,
      key ∈ [(.property, "gap".toList), (.propertyValue, "gap:normal".toList)] := by
  have hname : Text.lower "SELECTOR".toList = "selector".toList := by
    decide +kernel
  have hword : isNot (wordOf "Not") = true := by decide +kernel
  have hand : Joiner.and.isWord (wordOf "AND") = true := by decide +kernel
  have hgap := Written.test (.declaration "gap".toList default [wordOf "normal"]
    default default none Blank.nil Blank.nil Blank.nil Blank.nil)
  have hselector := Written.test (.selector hname default
    [.token ⟨.colon, default⟩, wordOf "has"] none)
  have hnot := Written.not hword Blank.nil Blank.nil Blank.nil hselector
  have hwritten := Written.joined (.cons hand Blank.nil Blank.nil
    (.group default none (.alone Blank.nil Blank.nil hgap))
    (.last .and Blank.nil Blank.nil (.group default none hnot)))
  have h := (written_expression_read _).2 _ hwritten
  refine ⟨h.1, h.2 (fun t => t.keys.all fun key =>
    key ∈ [(.property, "gap".toList), (.propertyValue, "gap:normal".toList)])
    _ ?_ ?_⟩
  · intro t ht key hkey
    exact of_decide_eq_true (List.all_eq_true.1 ht key hkey)
  · decide +kernel

end StyleAudit.Condition
