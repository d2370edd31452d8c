import StyleAudit.Availability.Database

/-!
# The bundled data

A snapshot of which features are available, used unless other data are given. Each entry tells
the key, the status and the year since which a feature has been available.
-/

namespace StyleAudit.Snapshot

/-- Key, status and year. -/
abbrev Entry := String × Status × Option Int

/-- Properties. -/
def properties : List Entry :=
  [("accent-color", .notBaseline, none),
   ("align-content", .widely, some 2015),
   ("align-items", .widely, some 2015),
   ("animation", .widely, some 2015),
   ("appearance", .widely, some 2022),
   ("aspect-ratio", .widely, some 2021),
   ("backdrop-filter", .newly, some 2024),
   ("background", .widely, some 2015),
   ("background-color", .widely, some 2015),
   ("background-image", .widely, some 2015),
   ("border", .widely, some 2015),
   ("border-radius", .widely, some 2015),
   ("bottom", .widely, some 2015),
   ("box-shadow", .widely, some 2015),
   ("box-sizing", .widely, some 2015),
   ("clip-path", .widely, some 2021),
   ("color", .widely, some 2015),
   ("color-scheme", .widely, some 2022),
   ("container-type", .widely, some 2023),
   ("contain", .widely, some 2022),
   ("content", .widely, some 2015),
   ("content-visibility", .newly, some 2024),
   ("cursor", .widely, some 2015),
   ("display", .widely, some 2015),
   ("field-sizing", .notBaseline, none),
   ("filter", .widely, some 2016),
   ("flex", .widely, some 2015),
   ("flex-direction", .widely, some 2015),
   ("font-family", .widely, some 2015),
   ("font-size", .widely, some 2015),
   ("font-stretch", .widely, some 2017),
   ("font-weight", .widely, some 2015),
   ("gap", .widely, some 2021),
   ("grid-template-columns", .widely, some 2017),
   ("height", .widely, some 2015),
   ("inset", .widely, some 2021),
   ("interpolate-size", .notBaseline, none),
   ("justify-content", .widely, some 2015),
   ("left", .widely, some 2015),
   ("line-height", .widely, some 2015),
   ("margin", .widely, some 2015),
   ("margin-block", .widely, some 2021),
   ("margin-inline", .widely, some 2021),
   ("max-width", .widely, some 2015),
   ("opacity", .widely, some 2015),
   ("overflow", .widely, some 2015),
   ("overscroll-behavior", .widely, some 2022),
   ("padding", .widely, some 2015),
   ("position", .widely, some 2015),
   ("right", .widely, some 2015),
   ("scrollbar-gutter", .newly, some 2024),
   ("text-align", .widely, some 2015),
   ("text-decoration", .widely, some 2015),
   ("text-wrap", .newly, some 2024),
   ("top", .widely, some 2015),
   ("transform", .widely, some 2015),
   ("transition", .widely, some 2015),
   ("view-transition-name", .newly, some 2025),
   ("width", .widely, some 2015),
   ("z-index", .widely, some 2015)]

/-- Keywords as values of a property. -/
def propertyValues : List Entry :=
  [("clip-path:fill-box", .notBaseline, none),
   ("clip-path:stroke-box", .notBaseline, none),
   ("clip-path:view-box", .notBaseline, none),
   ("cursor:pointer", .widely, some 2015),
   ("display:contents", .widely, some 2020),
   ("display:flex", .widely, some 2015),
   ("display:flow-root", .widely, some 2019),
   ("display:grid", .widely, some 2017),
   ("overflow:auto", .widely, some 2015),
   ("overflow:clip", .widely, some 2022),
   ("position:sticky", .widely, some 2019),
   ("text-wrap:balance", .newly, some 2024),
   ("text-wrap:pretty", .notBaseline, none)]

/-- At-rules. -/
def atRules : List Entry :=
  [("charset", .widely, some 2015),
   ("container", .widely, some 2023),
   ("counter-style", .widely, some 2023),
   ("font-face", .widely, some 2015),
   ("import", .widely, some 2015),
   ("keyframes", .widely, some 2015),
   ("layer", .widely, some 2022),
   ("media", .widely, some 2015),
   ("namespace", .widely, some 2015),
   ("page", .widely, some 2015),
   ("position-try", .notBaseline, none),
   ("property", .newly, some 2024),
   ("scope", .notBaseline, none),
   ("starting-style", .newly, some 2024),
   ("supports", .widely, some 2015),
   ("view-transition", .notBaseline, none)]

/-- Pseudo-classes, pseudo-elements and the nesting selector. -/
def selectors : List Entry :=
  [("active", .widely, some 2015),
   ("after", .widely, some 2015),
   ("backdrop", .widely, some 2022),
   ("before", .widely, some 2015),
   ("checked", .widely, some 2015),
   ("details-content", .notBaseline, none),
   ("dir", .newly, some 2023),
   ("disabled", .widely, some 2015),
   ("first-child", .widely, some 2015),
   ("first-letter", .widely, some 2015),
   ("first-line", .widely, some 2015),
   ("focus", .widely, some 2015),
   ("focus-visible", .widely, some 2022),
   ("focus-within", .widely, some 2020),
   ("fullscreen", .newly, some 2024),
   ("has", .newly, some 2023),
   ("host", .widely, some 2020),
   ("hover", .widely, some 2015),
   ("is", .widely, some 2021),
   ("last-child", .widely, some 2015),
   ("link", .widely, some 2015),
   ("marker", .widely, some 2020),
   ("nesting", .newly, some 2023),
   ("not", .widely, some 2015),
   ("nth-child", .widely, some 2015),
   ("part", .widely, some 2020),
   ("placeholder", .widely, some 2020),
   ("popover-open", .newly, some 2024),
   ("root", .widely, some 2015),
   ("selection", .notBaseline, none),
   ("user-valid", .newly, some 2023),
   ("visited", .widely, some 2015),
   ("where", .widely, some 2021)]

/-- Functions. -/
def functions : List Entry :=
  [("abs", .notBaseline, none),
   ("anchor", .notBaseline, none),
   ("attr", .widely, some 2015),
   ("blur", .widely, some 2016),
   ("calc", .widely, some 2015),
   ("clamp", .widely, some 2020),
   ("color-mix", .newly, some 2023),
   ("env", .widely, some 2020),
   ("hsl", .widely, some 2015),
   ("hsla", .widely, some 2015),
   ("image-set", .newly, some 2023),
   ("lab", .newly, some 2023),
   ("light-dark", .newly, some 2024),
   ("linear-gradient", .widely, some 2015),
   ("max", .widely, some 2020),
   ("min", .widely, some 2020),
   ("mod", .newly, some 2024),
   ("oklch", .newly, some 2023),
   ("rem", .newly, some 2024),
   ("rgb", .widely, some 2015),
   ("rgba", .widely, some 2015),
   ("rotate", .widely, some 2015),
   ("round", .newly, some 2024),
   ("scale", .widely, some 2015),
   ("sign", .notBaseline, none),
   ("sin", .newly, some 2023),
   ("translate", .widely, some 2015),
   ("var", .widely, some 2017)]

/-- Media features. -/
def mediaConditions : List Entry :=
  [("any-hover", .widely, some 2018),
   ("aspect-ratio", .widely, some 2015),
   ("color-gamut", .widely, some 2020),
   ("device-posture", .notBaseline, none),
   ("display-mode", .notBaseline, none),
   ("dynamic-range", .newly, some 2023),
   ("forced-colors", .widely, some 2022),
   ("height", .widely, some 2015),
   ("hover", .widely, some 2018),
   ("inverted-colors", .notBaseline, none),
   ("orientation", .widely, some 2015),
   ("pointer", .widely, some 2018),
   ("prefers-color-scheme", .widely, some 2020),
   ("prefers-contrast", .widely, some 2022),
   ("prefers-reduced-motion", .widely, some 2020),
   ("prefers-reduced-transparency", .notBaseline, none),
   ("resolution", .widely, some 2022),
   ("scripting", .newly, some 2023),
   ("width", .widely, some 2015)]

/-- The entries of one kind as records. -/
def recordsOf (kind : Feature.Kind) (entries : List Entry) : List Record :=
  entries.map fun (key, status, since) => ⟨key.toList, kind, status, since⟩

/-- All records, section by section. -/
def records : List Record :=
  recordsOf .property properties ++ recordsOf .propertyValue propertyValues
    ++ recordsOf .atRule atRules ++ recordsOf .selector selectors
    ++ recordsOf .function functions ++ recordsOf .mediaCondition mediaConditions

end Snapshot

/-- The bundled database. -/
def Database.bundled : Database := .ofRecords "2026.09" Snapshot.records

end StyleAudit
