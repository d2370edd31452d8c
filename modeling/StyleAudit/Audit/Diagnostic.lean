import StyleAudit.Availability.Threshold

/-!
# Diagnostics

A diagnostic says that a feature is not as available as was asked. Its message names the feature
as it was written; the names come from the details of the feature, and there is no message if a
name that it needs is missing. The availability is a year or the word of a level.
-/

namespace StyleAudit

/-- A feature that is not available as asked: its kind, the names that belong to it, where it
stands, and the availability it misses. -/
structure Diagnostic where
  kind : Feature.Kind
  details : Details
  availability : Json
  span : Span
deriving DecidableEq, Repr, Inhabited

namespace Diagnostic

/-- The diagnostic about a feature. -/
def ofFeature (f : Feature) (availability : Json) : Diagnostic :=
  ⟨f.kind, f.details, availability, f.span⟩

/-- What a message is about, each name between quotes. -/
def subject? (d : Diagnostic) : Option String := do
  let name (detail : String) : Option String :=
    (Dictionary.get? detail d.details).map fun value => "'" ++ value.text ++ "'"
  match d.kind with
  | .property => return "Property " ++ (← name "property")
  | .propertyValue => return "Value " ++ (← name "value") ++ " of property " ++ (← name "property")
  | .atRule =>
    return "At-rule '@" ++ (← Dictionary.get? "atRule" d.details).text ++ "'"
  | .selector => return "Selector " ++ (← name "selector")
  | .function => return "Function " ++ (← name "function")
  | .mediaCondition => return "Media condition " ++ (← name "condition")

/-- Whether an availability counts as a year: integers do, and truth values with them. -/
def isYear : Json → Bool
  | .int _ | .bool _ => true
  | _ => false

/-- What a message says about it. -/
def complaint (availability : Json) : String :=
  if isYear availability then " is not available as of " ++ availability.text ++ "."
  else " is not a " ++ availability.text ++ " available baseline feature."

/-- The message; none if a name that it needs is missing. -/
def message? (d : Diagnostic) : Option String :=
  d.subject?.map fun subject => subject ++ complaint d.availability

/-- The message, or nothing. -/
def message (d : Diagnostic) : String := d.message?.getD ""

/-- What belongs to the feature, together with the availability. -/
def data (d : Diagnostic) : Details := Dictionary.put "availability" d.availability d.details

/-- A diagnostic as a JSON object. -/
def toJson (d : Diagnostic) : Json :=
  .obj [("messageId", .str d.kind.messageId), ("message", .str d.message), ("data", .obj d.data),
    ("line", .int d.span.start.line), ("column", .int d.span.start.column),
    ("endLine", .int d.span.stop.line), ("endColumn", .int d.span.stop.column)]

end Diagnostic

end StyleAudit
