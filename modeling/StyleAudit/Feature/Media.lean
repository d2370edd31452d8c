import StyleAudit.Feature.Basic
import StyleAudit.Tree.Component

/-!
# Features of media queries

A parenthesized term of a media query names a media feature: alone, before a colon, or beside a
comparison. The two spellings of a range, which start with `min-` and `max-`, share the key of
the feature. A term that names no feature is searched for terms inside it.
-/

namespace StyleAudit.Feature

/-- Whether a component is part of a comparison. -/
def isComparison (c : Component) : Bool :=
  match c.kind? with
  | some (.delim mark) => mark = '<' || mark = '>' || mark = '='
  | _ => false

/-- The name and span of a component that is an identifier. -/
def identifier? (c : Component) : Option (Text × Span) :=
  match c with
  | .token ⟨.ident name, span⟩ => some (name, span)
  | _ => none

/-- The first identifier that directly follows a part of a comparison. -/
def compared? : List Component → Option (Text × Span)
  | c :: d :: rest =>
    match if isComparison c then identifier? d else none with
    | some found => some found
    | none => compared? (d :: rest)
  | _ => none

/-- The media feature that the contents of a term name, blanks aside: an identifier that comes
first, if it stands alone or before a colon or a comparison; otherwise one after a comparison. -/
def mediaName? (values : List Component) : Option (Text × Span) :=
  match values.filter (fun c => !c.isWhitespace) with
  | [] => none
  | c :: rest =>
    match identifier? c with
    | some found =>
      match rest with
      | [] => some found
      | d :: _ => if d.isColon || isComparison d then some found else none
    | none => compared? (c :: rest)

/-- The key of a media feature: the marks of a range are not part of it. -/
def mediaKey (name : Text) : Text :=
  let key := Text.lower name
  if "min-".toList.isPrefixOf key || "max-".toList.isPrefixOf key then key.drop 4 else key

mutual

/-- The media features in a component. -/
def mediaConditionsOf : Component → List Feature
  | .token _ => []
  | .block _ _ values _ =>
    match mediaName? values with
    | some (name, span) =>
      if isVendorPrefixed name then []
      else [⟨.mediaCondition, mediaKey name, span, [("condition", .ofText name)]⟩]
    | none => mediaConditions values
  | .function _ _ values _ => mediaConditions values

/-- The media features in a list of media queries, in order. -/
def mediaConditions : List Component → List Feature
  | [] => []
  | c :: rest => mediaConditionsOf c ++ mediaConditions rest

end

/-- The media queries of a prelude: what is left without functions, strings and URLs, which tell
what an import rule imports and how. -/
def mediaQueries (prelude : List Component) : List Component :=
  prelude.filter fun c =>
    match c with
    | .function _ _ _ _ => false
    | .token ⟨.string _, _⟩ => false
    | .token ⟨.url _, _⟩ => false
    | _ => true

end StyleAudit.Feature
