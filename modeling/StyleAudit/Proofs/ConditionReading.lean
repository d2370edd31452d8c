import StyleAudit.Support.Condition

/-!
# What a list of components asserts

The reader of conditions goes through a list once, and what it comes to can be
said without going through it. A list that starts with the word of a negation,
blanks aside, or that holds the word of a disjunction, asserts nothing. Any other
list asserts what its terms assert, one after the other: `asserted_ofComponents`.

The rest of the file is about the terms. Blanks and joining words are passed
over, so that the terms of a list are read piece by piece, and a list that does
not start with a name and a colon is no test of a declaration.
-/

namespace StyleAudit.Condition

/-- Whether there is nothing but white space in a list. -/
def Blank (cs : List Component) : Prop := ∀ c ∈ cs, c.isWhitespace = true

theorem Blank.nil : Blank [] := nofun

theorem Blank.head {c : Component} {cs : List Component} (h : Blank (c :: cs)) :
    c.isWhitespace = true := h c List.mem_cons_self

theorem Blank.tail {c : Component} {cs : List Component} (h : Blank (c :: cs)) :
    Blank cs := fun d hd => h d (List.mem_cons_of_mem c hd)

theorem Blank.dropWhile_append {before : List Component} (h : Blank before)
    (cs : List Component) :
    (before ++ cs).dropWhile Component.isWhitespace =
      cs.dropWhile Component.isWhitespace :=
  List.dropWhile_append_of_pos h

/-! ## Words -/

theorem isWord_eq_false_of_isWhitespace {c : Component} (word : Text)
    (h : c.isWhitespace = true) : isWord word c = false := by
  unfold isWord Component.ident?
  unfold Component.isWhitespace at h
  split
  · next name hname =>
      rw [hname] at h
      cases h
  · rfl

theorem isOperator_eq_false_of_isWhitespace {c : Component}
    (h : c.isWhitespace = true) : isOperator c = false := by
  rw [isOperator, isAnd, isOr, isWord_eq_false_of_isWhitespace _ h,
    isWord_eq_false_of_isWhitespace _ h]
  rfl

/-- A component is at most one of two words. -/
theorem isWord_eq_false_of_ne {c : Component} {word other : Text}
    (h : isWord word c = true) (hne : word ≠ other) : isWord other c = false := by
  unfold isWord at h ⊢
  cases hname : c.ident? with
  | none => rfl
  | some name =>
      rw [hname] at h
      simp only [Option.any_some, decide_eq_true_eq] at h
      simp only [Option.any_some, h, decide_eq_false_iff_not]
      exact hne

theorem isNot_ne_whitespace {c : Component} (h : isNot c = true) :
    c.isWhitespace = false := by
  rw [Bool.eq_false_iff]
  intro hblank
  rw [isNot, isWord_eq_false_of_isWhitespace _ hblank] at h
  cases h

theorem isOperator_of_isOr {c : Component} (h : isOr c = true) :
    isOperator c = true := by
  rw [isOperator, h, Bool.or_true]

/-- A function or a block is not a token, and so no word of any kind. -/
theorem isWord_of_kind?_none {c : Component} (word : Text)
    (h : c.kind? = none) : isWord word c = false := by
  rw [isWord, Component.ident?, h]
  rfl

theorem isWhitespace_of_kind?_none {c : Component} (h : c.kind? = none) :
    c.isWhitespace = false := by
  rw [Component.isWhitespace, h]
  rfl

theorem isOperator_of_kind?_none {c : Component} (h : c.kind? = none) :
    isOperator c = false := by
  rw [isOperator, isAnd, isOr, isWord_of_kind?_none _ h,
    isWord_of_kind?_none _ h]
  rfl

/-! ## Terms -/

theorem ofTerms_skip {c : Component} (cs : List Component)
    (h : (c.isWhitespace || isOperator c) = true) :
    ofTerms (c :: cs) = ofTerms cs := by
  rw [ofTerms, if_pos h]

theorem ofTerms_term {c : Component} (cs : List Component)
    (hblank : c.isWhitespace = false) (hword : isOperator c = false) :
    ofTerms (c :: cs) = ofTerm c :: ofTerms cs := by
  rw [ofTerms, if_neg]
  rw [hblank, hword]
  exact Bool.false_ne_true

theorem ofTerms_append (cs ds : List Component) :
    ofTerms (cs ++ ds) = ofTerms cs ++ ofTerms ds := by
  induction cs with
  | nil => rw [ofTerms, List.nil_append, List.nil_append]
  | cons c cs ih =>
      rw [List.cons_append, ofTerms, ofTerms, ih]
      split
      · rfl
      · rfl

theorem ofTerms_blank {cs : List Component} (h : Blank cs) :
    ofTerms cs = [] := by
  induction cs with
  | nil => rw [ofTerms]
  | cons c cs ih =>
      rw [ofTerms_skip cs (by rw [h.head]; rfl)]
      exact ih h.tail

theorem assertedAll_eq_flatMap (conditions : List Condition) :
    assertedAll conditions = conditions.flatMap asserted := by
  induction conditions with
  | nil => rw [assertedAll, List.flatMap_nil]
  | cons c rest ih => rw [assertedAll, List.flatMap_cons, ih]

theorem assertedAll_append (terms more : List Condition) :
    assertedAll (terms ++ more) = assertedAll terms ++ assertedAll more := by
  rw [assertedAll_eq_flatMap, List.flatMap_append, ← assertedAll_eq_flatMap,
    ← assertedAll_eq_flatMap]

/-! ## Lists -/

theorem ofComponents_skip {c : Component} (cs : List Component)
    (h : c.isWhitespace = true) : ofComponents (c :: cs) = ofComponents cs := by
  rw [ofComponents, if_pos h]

theorem ofComponents_blank_append {before : List Component} (h : Blank before)
    (cs : List Component) : ofComponents (before ++ cs) = ofComponents cs := by
  induction before with
  | nil => rfl
  | cons c before ih =>
      rw [List.cons_append, ofComponents_skip _ h.head]
      exact ih h.tail

theorem ofComponents_not {c : Component} (cs : List Component)
    (h : isNot c = true) : ofComponents (c :: cs) = not (ofComponents cs) := by
  rw [ofComponents, if_neg (ne_true_of_eq_false (isNot_ne_whitespace h)),
    if_pos h]

/-- From any component on but a blank or the word of a negation, a list is read
as the terms in it and the words between them. -/
theorem ofComponents_join {c : Component} (cs : List Component)
    (hblank : c.isWhitespace = false) (hnot : isNot c = false) :
    ofComponents (c :: cs) = join (ofTerms (c :: cs)) (c :: cs) := by
  rw [ofComponents, if_neg (ne_true_of_eq_false hblank),
    if_neg (ne_true_of_eq_false hnot), ofTerms, hblank, Bool.false_or]

/-- Blanks in front make no difference to how terms are joined. -/
theorem join_blank_append {before : List Component} (h : Blank before)
    (terms : List Condition) (cs : List Component) :
    join terms (before ++ cs) = join terms cs := by
  have hword (p : Component → Bool)
      (hp : ∀ c : Component, c.isWhitespace = true → p c = false) :
      (before ++ cs).any p = cs.any p := by
    rw [List.any_append, List.any_eq_false.2, Bool.false_or]
    exact fun c hc => ne_true_of_eq_false (hp c (h c hc))
  unfold join
  rw [hword isOperator fun _ => isOperator_eq_false_of_isWhitespace,
    hword isOr fun _ => isWord_eq_false_of_isWhitespace _]

/-- A term with nothing but blanks around it is the whole condition. -/
theorem ofComponents_alone {before after : List Component} {c : Component}
    (hbefore : Blank before) (hafter : Blank after) (hc : c.kind? = none) :
    ofComponents (before ++ c :: after) = ofTerm c := by
  have hblank := isWhitespace_of_kind?_none hc
  have hword := isOperator_of_kind?_none hc
  have hnone : (c :: after).any isOperator = false := by
    rw [List.any_cons, hword, Bool.false_or, List.any_eq_false]
    exact fun d hd =>
      ne_true_of_eq_false (isOperator_eq_false_of_isWhitespace (hafter d hd))
  rw [ofComponents_blank_append hbefore,
    ofComponents_join after hblank (isWord_of_kind?_none _ hc),
    ofTerms_term after hblank hword, ofTerms_blank hafter]
  unfold join
  rw [hnone]

theorem asserted_join (terms : List Condition) (cs : List Component) :
    (join terms cs).asserted =
      if cs.any isOr then [] else assertedAll terms := by
  have hword (h : cs.any isOr = true) : cs.any isOperator = true := by
    obtain ⟨c, hc, hor⟩ := List.any_eq_true.1 h
    exact List.any_eq_true.2 ⟨c, hc, isOperator_of_isOr hor⟩
  unfold join
  split
  · next term hnone =>
      rw [if_neg, assertedAll, assertedAll, List.append_nil]
      intro hor
      rw [hword hor] at hnone
      cases hnone
  · split
    · rw [asserted]
    · rw [asserted]

/-- Whether a list starts with the word of a negation, blanks aside. -/
def startsNegated (cs : List Component) : Bool :=
  (cs.dropWhile Component.isWhitespace).head?.any isNot

/-- Where a term comes first there is no word that could be that of a negation. -/
theorem startsNegated_term {before : List Component} {t : Component} (rest : List Component)
    (hbefore : Blank before) (ht : t.kind? = none) :
    startsNegated (before ++ t :: rest) = false := by
  have hblank := isWhitespace_of_kind?_none ht
  rw [startsNegated, hbefore.dropWhile_append,
    List.dropWhile_cons_of_neg (ne_true_of_eq_false hblank)]
  exact isWord_of_kind?_none _ ht

/-- Whether what stands in a list is not asserted: the list is a negation, or it
has the form of a disjunction. -/
def isWithheld (cs : List Component) : Bool := startsNegated cs || cs.any isOr

theorem isWithheld_skip {c : Component} (cs : List Component)
    (h : c.isWhitespace = true) : isWithheld (c :: cs) = isWithheld cs := by
  rw [isWithheld, startsNegated, List.dropWhile_cons_of_pos h, List.any_cons,
    isOr, isWord_eq_false_of_isWhitespace _ h, Bool.false_or]
  rfl

/-- A list asserts nothing if it is a negation or a disjunction, and otherwise
what its terms assert. -/
theorem asserted_ofComponents (cs : List Component) :
    (ofComponents cs).asserted =
      if isWithheld cs then [] else assertedAll (ofTerms cs) := by
  induction cs with
  | nil => rfl
  | cons c cs ih =>
      cases hblank : c.isWhitespace with
      | true =>
          rw [ofComponents_skip cs hblank, isWithheld_skip cs hblank,
            ofTerms_skip cs (by rw [hblank]; rfl)]
          exact ih
      | false =>
          have hhead : startsNegated (c :: cs) = isNot c := by
            rw [startsNegated, List.dropWhile_cons_of_neg (ne_true_of_eq_false hblank)]
            rfl
          cases hnot : isNot c with
          | true =>
              rw [ofComponents_not cs hnot, asserted, isWithheld, hhead, hnot,
                Bool.true_or, if_pos rfl]
          | false =>
              rw [ofComponents_join cs hblank hnot, asserted_join, isWithheld,
                hhead, hnot, Bool.false_or]

/-! ## Tests of declarations -/

theorem declaration?_blank_append {before : List Component} (h : Blank before)
    (cs : List Component) : declaration? (before ++ cs) = declaration? cs := by
  rw [declaration?, h.dropWhile_append, declaration?]

theorem declaration?_cons_term {c : Component} (cs : List Component)
    (h : c.kind? = none) : declaration? (c :: cs) = none := by
  have hblank := isWhitespace_of_kind?_none h
  rw [declaration?, List.dropWhile_cons_of_neg (ne_true_of_eq_false hblank)]
  cases c with
  | token t => cases h
  | function => rfl
  | block => rfl

/-- A name and a term behind it are no test of a declaration, whatever follows. -/
theorem declaration?_word_term {word c : Component} {between : List Component}
    (cs : List Component) (hword : word.isWhitespace = false)
    (hbetween : Blank between) (h : c.kind? = none) :
    declaration? (word :: (between ++ c :: cs)) = none := by
  have hblank := isWhitespace_of_kind?_none h
  rw [declaration?, List.dropWhile_cons_of_neg (ne_true_of_eq_false hword)]
  split
  · next name span rest heq =>
      cases heq
      rw [hbetween.dropWhile_append,
        List.dropWhile_cons_of_neg (ne_true_of_eq_false hblank)]
      cases c with
      | token t => cases h
      | function => rfl
      | block => rfl
  · rfl

/-! ## Components whose place does not matter -/

/-- An identifier, wherever it stands. -/
def wordOf (name : String) : Component := .token ⟨.ident name.toList, default⟩

/-- Components in parentheses, wherever they stand. -/
def groupOf (values : List Component) : Component :=
  .block .round default values none

/-- The test of a declaration, wherever it stands. -/
def testOf (property value : String) : Component :=
  groupOf [wordOf property, .token ⟨.colon, default⟩, wordOf value]

end StyleAudit.Condition
