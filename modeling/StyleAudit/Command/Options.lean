import StyleAudit.Audit.Configuration
import StyleAudit.Command.Arguments

/-!
# Options of a command line

The options given on the command line are joined with those of a file: a threshold replaces the
one in the file, and names are added to the lists in the file. What the file has in the place of
a list, but is none, is left for the configuration to refuse.
-/

namespace StyleAudit.Command

/-- The options with names added to one of the lists. -/
def addNames (name : String) (values : List Value) (options : Configuration.Options) :
    Configuration.Options :=
  if values.isEmpty then options
  else
    let added := values.map Value.toJson
    match Dictionary.get? name options with
    | none => Dictionary.put name (.arr added) options
    | some (.arr items) => Dictionary.put name (.arr (items ++ added)) options
    | some _ => options

/-- The options with the threshold of the command line, if it has one. -/
def setAvailable (available : Option Json) (options : Configuration.Options) :
    Configuration.Options :=
  match available with
  | some json => Dictionary.put Configuration.availableName json options
  | none => options

/-- The options of a file together with those of the command line. -/
def Arguments.options (a : Arguments) (file : Configuration.Options) : Configuration.Options :=
  addNames Configuration.selectors.camel a.allowSelectors
    (addNames Configuration.atRules.camel a.allowAtRules
      (addNames Configuration.properties.camel a.allowProperties
        (setAvailable a.available file)))

end StyleAudit.Command
