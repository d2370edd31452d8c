import StyleAudit.Audit.Configuration

/-!
# Exemptions

A feature whose name is allowed is never reported. Properties match as they were written, and
exempt their values with them; at-rules match in letters of any case; selectors match by key. A
property whose name is missing, or is not a single value, cannot be looked up.
-/

namespace StyleAudit.Configuration

/-- Why the name that decides about a feature cannot be looked up. -/
inductive NameError where
  | missing
  | composite
deriving DecidableEq, Repr

/-- Whether a property with a name is allowed. -/
def allowsProperty (c : Configuration) (name : Json) : Except NameError Bool :=
  match name with
  | .str s => .ok (c.allowProperties.contains s.toList)
  | .arr _ | .obj _ => .error .composite
  | _ => .ok false

/-- Whether a feature is exempt, or why that cannot be told. -/
def exempts? (c : Configuration) (f : Feature) : Except NameError Bool :=
  match f.kind with
  | .property | .propertyValue =>
    match Dictionary.get? "property" f.details with
    | some name => c.allowsProperty name
    | none => .error .missing
  | .atRule => .ok ((c.allowAtRules.map Text.lower).contains f.key)
  | .selector => .ok (c.allowSelectors.contains f.key)
  | .function | .mediaCondition => .ok false

/-- Whether a feature is exempt. -/
def exempts (c : Configuration) (f : Feature) : Bool :=
  match c.exempts? f with
  | .ok b => b
  | .error _ => false

end StyleAudit.Configuration
