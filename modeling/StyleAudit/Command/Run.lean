import StyleAudit.Audit.Validation
import StyleAudit.Availability.Snapshot
import StyleAudit.Command.Files
import StyleAudit.Command.Log
import StyleAudit.Command.Options
import StyleAudit.Command.Report
import StyleAudit.Encoding
import StyleAudit.Json.Reader

/-!
# A run of the program

A run is a function of the command line, of whether the output is a terminal, of the files, and of
what it is given by the libraries that it rests on. Its exit status is zero if nothing was
reported, one if something was, and two if a file or an option was in the way; in the last case
nothing is written but the log. Four things make a run break off: options or availability data that
are not UTF-8, a flag for a file without a path, the code point zero in a path or in the name of an
encoding, and an encoding that fails in a way of its own.
-/

namespace StyleAudit.Command

/-- What a run is given besides the command line and the files: what options spell, the encodings
there are, what becomes of a text that starts with the tag of a color, and the characters that
stand in for halves of surrogate pairs, which JSON can spell but no text holds. -/
structure Environment (ε : Type) where
  validate : Configuration.Validator
  codecs : Codecs ε
  markup : String → String
  standIn : Nat → Char

/-- What the program is run with. -/
def Environment.standard : Environment Empty :=
  ⟨Configuration.ofOptions, Encoding.codecs, terminalMarkup, Json.standIn⟩

/-- A failure that is told by its word alone. -/
def byWord (word : String) : String := "<" ++ word ++ ">"

/-- What makes a run break off, if encodings fail in the given ways of their own. -/
inductive Break (ε : Type) where
  | undecodable
  | noPath
  | invalidName
  | encoding (e : ε)
deriving DecidableEq, Repr

/-- What makes a run break off, if encodings have no ways of their own to fail. -/
abbrev Breakage := Break Empty

/-- What stops a run: a failure that is logged, or one that makes it break off. -/
inductive Stop (ε : Type) where
  | failed (message : String)
  | broken (b : Break ε)
deriving DecidableEq, Repr

section reading

variable {ε : Type} (env : Environment ε)

/-- The content of a file. -/
def readBytes (files : Files) (path : Text) : Except (Stop ε) ByteArray :=
  if path.contains '\x00' then .error (.broken .invalidName)
  else (files path).mapError fun e => .failed (byWord e.word)

/-- The path that a flag for a file gives. -/
def pathOf (value : Value) : Except (Stop ε) Text :=
  match value with
  | some path => .ok path
  | none => .error (.broken .noPath)

/-- The text of a file that has to be UTF-8. -/
def readText (files : Files) (path : Text) : Except (Stop ε) Text := do
  match Encoding.utf8.decode? (← readBytes files path) with
  | some t => .ok t
  | none => .error (.broken .undecodable)

/-- The options in a file. -/
def readOptions (files : Files) (path : Text) : Except (Stop ε) Configuration.Options := do
  match Json.parseWith? env.standIn (← readText files path) with
  | none => .error (.failed (byWord "JSONDecodeError"))
  | some json => match json.members? with
    | some options => .ok options
    | none => .error (.failed (String.ofList path ++ ": options must be a JSON object"))

/-- The configuration that a command line asks for. -/
def Arguments.configuration (a : Arguments) (files : Files) : Except (Stop ε) Configuration := do
  let file ← match a.config with
    | some value => readOptions env files (← pathOf value)
    | none => pure []
  match Configuration.ofJsonWith env.validate (.obj (a.options file)) with
  | .ok c => return c
  | .error _ => .error (.failed (byWord "ConfigurationError"))

/-- The database in a file. -/
def readDatabase (files : Files) (path : Text) : Except (Stop ε) Database := do
  match Json.parseWith? env.standIn (← readText files path) with
  | none => .error (.failed (byWord "DatabaseError"))
  | some json => (Database.ofJson json).mapError fun e => .failed e.message

/-- The database that a command line asks for. -/
def Arguments.readDatabase (a : Arguments) (files : Files) : Except (Stop ε) Database := do
  match a.database with
  | none => return .bundled
  | some value => Command.readDatabase env files (← pathOf value)

/-- What stops a run if the bytes of a stylesheet are no text. -/
def Stop.ofEncoding : EncodingError ε → Stop ε
  | .undecodable => .failed (byWord "UnicodeDecodeError")
  | .unknownName _ => .failed (byWord "LookupError")
  | .invalidName => .broken .invalidName
  | .other e => .broken (.encoding e)

/-- The text of a stylesheet, or why there is none. -/
def readStylesheet (files : Files) (path : Text) : Except (Stop ε) Text := do
  let bytes ← readBytes files path
  (Encoding.decodeWith env.codecs bytes).mapError .ofEncoding

/-- What came of a file: its diagnostics or why it could not be audited, and what was logged. -/
structure FileResult (ε : Type) where
  outcome : Except (Stop ε) (List Diagnostic)
  log : List LogEntry

/-- The audit of a source that was read from a path. -/
def auditSource (audit : Audit) (mode : Mode) (path source : Text) : FileResult ε :=
  let lexed := Source.tokenize source
  let found := lexed.errors.map LogEntry.tokenError
  match Stylesheet.ofLexed mode lexed with
  | .error e => ⟨.error (.failed e.render), found⟩
  | .ok sheet =>
    let ds := audit.diagnostics sheet
    ⟨.ok ds, found ++ (sheet.errors.drop lexed.errors.length).map LogEntry.treeError
      ++ [LogEntry.parsed path sheet] ++ (audit.events sheet).map LogEntry.ofEvent
      ++ [LogEntry.walked path ds]⟩

/-- The audit of a file. -/
def auditFile (audit : Audit) (mode : Mode) (files : Files) (path : Text) : FileResult ε :=
  match readStylesheet env files path with
  | .error why => ⟨.error why, []⟩
  | .ok source => auditSource audit mode path source

/-- What stops a run at a file: a failure is told with the path. -/
def Stop.atFile (path : Text) : Stop ε → Stop ε
  | failed message => failed (String.ofList path ++ ": " ++ message)
  | broken b => broken b

/-- The diagnostics of all files or why one of them could not be audited, and what was logged
until then. -/
def auditFiles (audit : Audit) (mode : Mode) (files : Files) :
    List Text → Results → Except (Stop ε) Results × List LogEntry
  | [], results => (.ok results, [])
  | path :: rest, results =>
    let r := auditFile env audit mode files path
    match r.outcome with
    | .error why => (.error (why.atFile path), r.log)
    | .ok ds =>
      let (outcome, log) := auditFiles audit mode files rest (Dictionary.put path ds results)
      (outcome, r.log ++ log)

end reading

/-- The end of a run: its exit status, what it wrote, and what it logged. -/
structure Finished where
  status : Nat
  output : String
  log : List LogEntry
deriving DecidableEq, Repr

/-- A run: it comes to an end, or breaks off. -/
inductive Result (ε : Type) where
  | finished (f : Finished)
  | broken (b : Break ε)
deriving DecidableEq, Repr

section running

variable {ε : Type} (env : Environment ε)

/-- The run that is stopped after some entries of the log. -/
def Result.stopped (log : List LogEntry) : Stop ε → Result ε
  | .failed message => .finished ⟨2, "", log ++ [.failure message]⟩
  | .broken b => .broken b

/-- The report that a command line asks for. -/
def Arguments.report (a : Arguments) (terminal : Bool) (results : Results) : String :=
  if a.json then results.json
  else results.text (if terminal && !a.noColor then .colors env.markup else .plain)

/-- The run that audits the files of a command line. -/
def Arguments.audit (a : Arguments) (terminal : Bool) (files : Files) (audit : Audit) :
    Result ε :=
  let mode := if a.tolerant then Mode.tolerant else Mode.strict
  let ready := LogEntry.loaded audit.database
  match auditFiles env audit mode files a.files [] with
  | (.error why, log) => .stopped (ready :: log) why
  | (.ok results, log) =>
    .finished ⟨if results.anyReported then 1 else 0, a.report env terminal results, ready :: log⟩

/-- The run of a command line in an environment. -/
def Arguments.runIn (a : Arguments) (terminal : Bool) (files : Files) : Result ε :=
  let setup : Except (Stop ε) Audit := do
    return ⟨← a.configuration env files, ← a.readDatabase env files⟩
  match setup with
  | .ok audit => a.audit env terminal files audit
  | .error why => .stopped [] why

end running

/-- The run of a command line. -/
def Arguments.run (a : Arguments) (terminal : Bool) (files : Files) : Result Empty :=
  a.runIn .standard terminal files

/-- The log as it is shown. -/
def Arguments.shownLog (a : Arguments) (log : List LogEntry) : String :=
  String.join ((log.filter (LogEntry.isShown a.verbose)).map LogEntry.line)

/-- The name and version of the program. -/
def versionLine : String := "cssbaseline 0.1.0\n"

end StyleAudit.Command
