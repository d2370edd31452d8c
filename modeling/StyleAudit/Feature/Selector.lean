import StyleAudit.Feature.Basic
import StyleAudit.Tree.Component

/-!
# Features of selectors

In a selector, a name or a function after one or two colons is a feature, from the first colon to
the end of the name, and so is the mark of the nesting selector. The arguments of functions are
selectors again. What follows the colons is passed over, whatever it is.
-/

namespace StyleAudit.Feature

/-- The feature that a component after colons names; `start` is where the first colon stands. -/
def pseudo (start : Position) (c : Component) : List Feature :=
  let named (name : Text) (stop : Position) : List Feature :=
    if isVendorPrefixed name then []
    else [⟨.selector, Text.lower name, ⟨start, stop⟩, [("selector", .ofText name)]⟩]
  match c with
  | .token ⟨.ident name, span⟩ => named name span.stop
  | .function name head _ _ => named name head.nameEnd
  | _ => []

/-- The feature that a single component is: the mark of the nesting selector. -/
def nesting (c : Component) : List Feature :=
  match c with
  | .token ⟨.delim mark, span⟩ =>
    if mark = '&' then
      [⟨.selector, "nesting".toList, span, [("selector", .str "nesting")]⟩]
    else []
  | _ => []

mutual

/-- The features in the arguments of a component that is a function. -/
def argumentSelectors : Component → List Feature
  | .function _ _ values _ => selectors values
  | _ => []

/-- The features of a list of selectors. -/
def selectors : List Component → List Feature
  | [] => []
  | c :: rest =>
    if c.isColon then selectorsAfterColon c.start rest
    else nesting c ++ argumentSelectors c ++ selectors rest

/-- The features of what follows a first colon: a second one, or the name. -/
def selectorsAfterColon (start : Position) : List Component → List Feature
  | [] => []
  | c :: rest =>
    if c.isColon then selectorsAfterColons start rest
    else pseudo start c ++ argumentSelectors c ++ selectors rest

/-- The features of what follows two colons. -/
def selectorsAfterColons (start : Position) : List Component → List Feature
  | [] => []
  | c :: rest => pseudo start c ++ argumentSelectors c ++ selectors rest

end

end StyleAudit.Feature
