import StyleAudit.Feature.Basic
import StyleAudit.Tree.Declaration

/-!
# Features of declarations

A declaration uses its property, each keyword that stands in its value, and each function
anywhere in its value. A custom property uses nothing, nor does one that a vendor added.
-/

namespace StyleAudit.Feature

mutual

/-- The functions in a component, at any depth and in order. -/
def functionsOf : Component → List Feature
  | .token _ => []
  | .function name head values closing =>
    (if isVendorPrefixed name then []
     else [⟨.function, Text.lower name, (Component.function name head values closing).span,
       [("function", .ofText name)]⟩]) ++ functions values
  | .block _ _ values _ => functions values

/-- The functions in some components, at any depth and in order. -/
def functions : List Component → List Feature
  | [] => []
  | c :: rest => functionsOf c ++ functions rest

end

/-- The features of one component of the value of a property: the keyword it is, or the functions
in it. -/
def ofValue (property : Text) (c : Component) : List Feature :=
  match c with
  | .token ⟨.ident name, span⟩ =>
    if isVendorPrefixed name then []
    else [⟨.propertyValue, propertyValueKey property name, span,
      [("property", .ofText property), ("value", .ofText name)]⟩]
  | _ => functionsOf c

/-- The features of a declaration: its property, then those of its value. -/
def ofDeclaration (d : Declaration) : List Feature :=
  if isCustomProperty d.name || isVendorPrefixed d.name then []
  else
    ⟨.property, Text.lower d.name, d.span, [("property", .ofText d.name)]⟩
      :: d.values.flatMap (ofValue d.name)

end StyleAudit.Feature
