import StyleAudit.Audit.Diagnostic

/-!
# Reports

The diagnostics of the files, as text or as JSON. In the text each file that has any is a
paragraph, and a line with their number follows; colors mark the place, the level and the word of
a diagnostic, as the markup of the terminal shows them. In the JSON every file has an entry.
-/

namespace StyleAudit.Command

/-- The diagnostics of each file, in the order in which the files were first named. -/
abbrev Results := Dictionary Text (List Diagnostic)

/-- A text filled up with blanks to a width. -/
def padRight (width : Nat) (s : String) : String :=
  s ++ String.ofList (List.replicate (width - s.length) ' ')

/-- How the parts of a line are marked. -/
structure Palette where
  place : String → String
  level : String → String
  word : String → String

/-- No marks. -/
def Palette.plain : Palette := ⟨id, id, id⟩

/-- Grey for the place and the word, yellow for the level, given what becomes of a text that starts
with the tag of a color. -/
def Palette.colors (markup : String → String) : Palette :=
  let grey := fun s => markup ("[243]" ++ s)
  ⟨grey, fun s => markup ("[yellow]" ++ s), grey⟩

/-- The tags of the two colors, with the codes that switch a terminal over to them. -/
def colorCodes : List (String × String) :=
  [("[243]", "\x1b[38;5;243m"), ("[yellow]", "\x1b[38;2;255;255;0m")]

/-- A text with the tag that it starts with replaced by its code. -/
def terminalMarkup (s : String) : String :=
  match colorCodes.find? fun entry => entry.1.toList.isPrefixOf s.toList with
  | some (tag, code) => code ++ String.ofList (s.toList.drop tag.length)
  | none => s

/-- The line of a diagnostic. -/
def Palette.line (p : Palette) (d : Diagnostic) : String :=
  "  " ++ p.place (padRight 8 d.span.start.render) ++ p.level "warning" ++ "  " ++ d.message
    ++ "  " ++ p.word d.kind.messageId ++ "\n"

/-- The paragraph of a file; nothing if it has no diagnostics. -/
def Palette.paragraph (p : Palette) (path : Text) (ds : List Diagnostic) : String :=
  if ds.isEmpty then ""
  else String.ofList path ++ "\n" ++ String.join (ds.map p.line) ++ "\n"

namespace Results

/-- The number of all diagnostics. -/
def total (r : Results) : Nat := r.foldr (fun entry n => entry.2.length + n) 0

/-- Whether there are any diagnostics. -/
def anyReported (r : Results) : Bool := r.any fun entry => !entry.2.isEmpty

/-- The report as text. -/
def text (r : Results) (p : Palette) : String :=
  String.join (r.map fun entry => p.paragraph entry.1 entry.2)
    ++ (if r.total = 0 then ""
        else toString r.total ++ " problem" ++ (if r.total = 1 then "" else "s") ++ "\n")

/-- The report as a JSON value. -/
def toJson (r : Results) : Json :=
  .arr (r.map fun entry =>
    .obj [("filePath", .str (String.ofList entry.1)),
      ("messages", .arr (entry.2.map Diagnostic.toJson))])

/-- The report as JSON text. -/
def json (r : Results) : String := r.toJson.indented "" ++ "\n"

end Results

end StyleAudit.Command
