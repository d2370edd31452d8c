import StyleAudit.Feature.Selector
import StyleAudit.Feature.Value

/-!
# Conditions of support

The prelude of a support rule is an expression of tests. A test of a declaration or of a selector
stands for the features that it uses; other tests stand for none. `Condition.asserted` are the
features that hold whenever the condition does: those of a test, and those of all operands of a
conjunction. What stands under a negation or in a disjunction is not asserted.
-/

namespace StyleAudit

/-- An expression of support: a test with the features it stands for, a negation, a conjunction
or a disjunction. -/
inductive Condition where
  | test (keys : List Feature.Key)
  | not (operand : Condition)
  | and (operands : List Condition)
  | or (operands : List Condition)
deriving Repr, Inhabited

namespace Condition

/-- The declaration that a parenthesized term tests: an identifier and a colon come first, blanks
aside, and the value is what follows. -/
def declaration? (values : List Component) : Option Declaration :=
  match values.dropWhile Component.isWhitespace with
  | .token ⟨.ident name, span⟩ :: rest =>
    match rest.dropWhile Component.isWhitespace with
    | .token ⟨.colon, _⟩ :: body =>
      some ⟨name, span, trim Component.isWhitespace body, false⟩
    | _ => none
  | _ => none

/-- The keys of some features. -/
def keysOf (features : List Feature) : List Feature.Key := features.map Feature.scopeKey

/-- Whether a component is a given word, in letters of any case. -/
def isWord (word : Text) (c : Component) : Bool := c.ident?.any fun name => Text.lower name = word

/-- Whether a component is the word of a conjunction. -/
def isAnd (c : Component) : Bool := isWord "and".toList c

/-- Whether a component is the word of a disjunction. -/
def isOr (c : Component) : Bool := isWord "or".toList c

/-- Whether a component is the word of a negation. -/
def isNot (c : Component) : Bool := isWord "not".toList c

/-- Whether a component joins terms. -/
def isOperator (c : Component) : Bool := isAnd c || isOr c

/-- The condition of some terms: the term itself if it is the only one and no word joins it to
anything, a disjunction if one of the words is `or`, otherwise a conjunction. -/
def join (terms : List Condition) (components : List Component) : Condition :=
  match terms, components.any isOperator with
  | [term], false => term
  | _, _ => if components.any isOr then or terms else and terms

mutual

/-- The condition of a single term. -/
def ofTerm : Component → Condition
  | .block .round _ values _ =>
    match declaration? values with
    | some d => test (keysOf (Feature.ofDeclaration d))
    | none => ofComponents values
  | .function name _ values _ =>
    if Text.lower name = "selector".toList then test (keysOf (Feature.selectors values))
    else test []
  | _ => test []

/-- The conditions of the terms among some components, which blanks and words separate. -/
def ofTerms : List Component → List Condition
  | [] => []
  | c :: rest => if c.isWhitespace || isOperator c then ofTerms rest else ofTerm c :: ofTerms rest

/-- The condition that the prelude of a support rule spells, or the inside of a group. A negation
is one whose word comes first, and it is of all that follows. -/
def ofComponents : List Component → Condition
  | [] => test []
  | c :: rest =>
    if c.isWhitespace then ofComponents rest
    else if isNot c then not (ofComponents rest)
    else
      let terms := ofTerms rest
      join (if isOperator c then terms else ofTerm c :: terms) (c :: rest)

end

mutual

/-- The keys that hold whenever a condition does. -/
def asserted : Condition → List Feature.Key
  | test keys => keys
  | and operands => assertedAll operands
  | not _ => []
  | or _ => []

/-- The keys that hold whenever all of some conditions do. -/
def assertedAll : List Condition → List Feature.Key
  | [] => []
  | c :: rest => asserted c ++ assertedAll rest

end

end Condition

/-- Whether an at-rule is a support rule, by its name. -/
def isSupportRule (name : Text) : Bool := Text.lower name = "supports".toList

end StyleAudit
