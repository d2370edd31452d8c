import StyleAudit.Availability.Threshold

/-!
# Options

A configuration is a threshold and three lists of names that are allowed whatever their
availability. It is read from a JSON object, in which a list has a name in two spellings. What the
object spells is not for the program to say: it asks a `Validator`, which answers with a
configuration or with all that is wrong with the options.
-/

namespace StyleAudit

/-- The threshold and the names that are allowed. -/
structure Configuration where
  available : Threshold := .widely
  allowProperties : List Text := []
  allowAtRules : List Text := []
  allowSelectors : List Text := []
deriving DecidableEq, Repr, Inhabited

/-- Something that is wrong with the options: where, and the word for it. -/
structure Issue where
  location : List Json
  word : String
deriving DecidableEq, Repr

/-- An option has a name that is not known. -/
def Issue.unknown (name : String) : Issue := ⟨[.str name], "extra_forbidden"⟩

/-- The ways in which options are no configuration. -/
inductive ConfigurationError where
  | notAMapping (options : Json)
  | invalid (issues : List Issue)

/-- The wording of an error; of issues it tells the number. -/
def ConfigurationError.message : ConfigurationError → String
  | notAMapping options => "Options must be a mapping, not " ++ options.typeName
  | invalid issues =>
    toString issues.length ++ " validation error" ++ (if issues.length = 1 then "" else "s")
      ++ " for Configuration"

namespace Configuration

/-- The two spellings of the name of an option that is a list. -/
structure ListName where
  camel : String
  snake : String

/-- The names of the list of allowed properties. -/
def properties : ListName := ⟨"allowProperties", "allow_properties"⟩

/-- The names of the list of allowed at-rules. -/
def atRules : ListName := ⟨"allowAtRules", "allow_at_rules"⟩

/-- The names of the list of allowed selectors. -/
def selectors : ListName := ⟨"allowSelectors", "allow_selectors"⟩

/-- The names of all lists. -/
def listNames : List ListName := [properties, atRules, selectors]

/-- The name of the option that is the threshold. -/
def availableName : String := "available"

/-- The options given, by name. -/
abbrev Options := Dictionary String Json

/-- The value of a list under the spelling that counts, with that spelling: the first one if it
is there. -/
def ListName.find? (n : ListName) (options : Options) : Option (String × Json) :=
  match Dictionary.get? n.camel options with
  | some json => some (n.camel, json)
  | none => (Dictionary.get? n.snake options).map fun json => (n.snake, json)

/-- What says which configuration some options spell, or all that is wrong with them. -/
abbrev Validator := Options → Except (List Issue) Configuration

/-- The configuration that a JSON value spells, given a validator; null stands for no options. -/
def ofJsonWith (validate : Validator) : Json → Except ConfigurationError Configuration
  | .null => .ok {}
  | .obj options => (validate options).mapError .invalid
  | json => .error (.notAMapping json)

end Configuration

end StyleAudit
