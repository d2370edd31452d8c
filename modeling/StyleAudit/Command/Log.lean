import StyleAudit.Audit.Walk

/-!
# The log

What happens during a run is logged under the name of the part in which it happens. Entries below
the level of warnings are shown only on request.
-/

namespace StyleAudit.Command

/-- How serious an entry is. -/
inductive Level where
  | debug
  | warning
  | error
deriving DecidableEq, Repr

/-- The word for a level. -/
def Level.word : Level → String
  | debug => "DEBUG"
  | warning => "WARNING"
  | error => "ERROR"

/-- A message, how serious it is, and the part that it comes from. -/
structure LogEntry where
  level : Level
  part : String
  message : String
deriving DecidableEq, Repr

namespace LogEntry

/-- An entry as a line. -/
def line (e : LogEntry) : String := e.level.word ++ " " ++ e.part ++ ": " ++ e.message ++ "\n"

/-- Whether an entry is shown. -/
def isShown (verbose : Bool) (e : LogEntry) : Bool := verbose || e.level ≠ .debug

/-- A failure that ends the run. -/
def failure (message : String) : LogEntry := ⟨.error, "cssbaseline.cli", message⟩

/-- A database has been made ready. -/
def loaded (d : Database) : LogEntry := ⟨.debug, "cssbaseline.compat", "loaded " ++ d.describe⟩

/-- A fault in a token. -/
def tokenError (e : SyntaxError) : LogEntry :=
  ⟨.debug, "cssbaseline.css.lexer", "lexer error: " ++ e.render⟩

/-- A fault in the tree that is tolerated. -/
def treeError (e : SyntaxError) : LogEntry := ⟨.warning, "cssbaseline.css.parser", e.render⟩

/-- A stylesheet has been read. -/
def parsed (path : Text) (s : Stylesheet) : LogEntry :=
  ⟨.debug, "cssbaseline.css.parser", "parsed " ++ String.ofList path ++ ": "
    ++ toString s.rules.length ++ " rules, " ++ toString s.errors.length ++ " errors"⟩

/-- Something happened on the walk of a stylesheet. -/
def ofEvent : Event → LogEntry
  | .reported d =>
    ⟨.debug, "cssbaseline.walker",
      d.span.start.render ++ " " ++ d.kind.messageId ++ ": " ++ d.message⟩
  | .entered position depth keys =>
    let names := (keys.eraseDups.map Prod.snd).mergeSort Text.le
    ⟨.debug, "cssbaseline.scope", "entering @supports at " ++ position.render ++ " (depth "
      ++ toString depth ++ "): [" ++ ", ".intercalate (names.map Text.quoted) ++ "]"⟩
  | .skipped e => ⟨.debug, "cssbaseline.walker", "skipping malformed input: " ++ e.render⟩

/-- The walk of a stylesheet is over. -/
def walked (path : Text) (ds : List Diagnostic) : LogEntry :=
  ⟨.debug, "cssbaseline.walker", String.ofList path ++ ": " ++ toString ds.length
    ++ " diagnostics"⟩

end LogEntry

end StyleAudit.Command
