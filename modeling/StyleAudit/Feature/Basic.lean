import StyleAudit.Json.Basic
import StyleAudit.Source.Position
import StyleAudit.Text.Lower

/-!
# Features

A feature is one use of something whose availability can be looked up: its kind, the key under
which it is looked up, the part of the source that names it, and the names as they were written.
Keys are in small letters. Names that start with a vendor's mark are never features.
-/

namespace StyleAudit

/-- The kinds of features, in the order of their sections in the availability data. -/
inductive Feature.Kind where
  | property
  | propertyValue
  | atRule
  | selector
  | function
  | mediaCondition
deriving DecidableEq, Repr, Inhabited

namespace Feature.Kind

/-- All kinds in order. -/
def all : List Kind := [property, propertyValue, atRule, selector, function, mediaCondition]

/-- The name of the section of the availability data. -/
def sectionName : Kind → String
  | property => "properties"
  | propertyValue => "propertyValues"
  | atRule => "atRules"
  | selector => "selectors"
  | function => "functions"
  | mediaCondition => "mediaConditions"

/-- The kind of a section. -/
def ofSection? (name : String) : Option Kind := all.find? fun k => k.sectionName = name

/-- The word by which a diagnostic about a feature is known. -/
def messageId : Kind → String
  | property => "notBaselineProperty"
  | propertyValue => "notBaselinePropertyValue"
  | atRule => "notBaselineAtRule"
  | selector => "notBaselineSelector"
  | function => "notBaselineFunction"
  | mediaCondition => "notBaselineMediaCondition"

end Feature.Kind

/-- What features are told apart by: kind and key. -/
abbrev Feature.Key := Feature.Kind × Text

/-- What belongs to a feature, under the words that messages use: in a feature of a stylesheet,
names as they were written. -/
abbrev Details := Dictionary String Json

/-- One use of a feature. -/
structure Feature where
  kind : Feature.Kind
  key : Text
  span : Span
  details : Details
deriving DecidableEq, Repr, Inhabited

namespace Feature

/-- What enclosing conditions know a feature by. -/
def scopeKey (f : Feature) : Key := (f.kind, f.key)

/-- The marks with which vendors start the names of their own additions. -/
def vendorMarks : List Text :=
  ["-webkit-".toList, "-moz-".toList, "-ms-".toList, "-o-".toList]

/-- Whether a name starts with a vendor's mark, in letters of any case. -/
def isVendorPrefixed (name : Text) : Bool :=
  vendorMarks.any fun mark => mark.isPrefixOf (Text.lower name)

/-- The key of a keyword as the value of a property. -/
def propertyValueKey (property value : Text) : Text :=
  Text.lower property ++ ':' :: Text.lower value

/-- The feature that an at-rule is, by its name; none if a vendor added it. -/
def ofAtRule? (name : Text) (span : Span) : Option Feature :=
  if isVendorPrefixed name then none
  else some ⟨.atRule, Text.lower name, span, [("atRule", .ofText name)]⟩

end Feature

end StyleAudit
