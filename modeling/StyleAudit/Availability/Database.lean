import StyleAudit.Feature.Basic
import StyleAudit.Json.Printer

/-!
# Availability data

A database holds records of features under their keys in small letters, in order. It is made from
a list of records or from a JSON object with one section for each kind of feature; in the section
of property values the records are nested under the property. Of two entries whose keys agree in
small letters the later one counts, in the place of the earlier one.
-/

namespace StyleAudit

/-- How widely a feature is available. -/
inductive Status where
  | notBaseline
  | newly
  | widely
deriving DecidableEq, Repr, Inhabited

namespace Status

/-- The word for a status. -/
def word : Status → String
  | notBaseline => "not-baseline"
  | newly => "newly"
  | widely => "widely"

/-- The status of a word. -/
def ofWord? (s : String) : Option Status := [notBaseline, newly, widely].find? fun x => x.word = s

end Status

/-- What is known about a feature: its key, its kind, its status, and the year since which it has
been available, if it has. -/
structure Record where
  key : Text
  kind : Feature.Kind
  status : Status
  since : Option Int
deriving DecidableEq, Repr, Inhabited

/-- Records under their keys in small letters, and the version of the data. -/
structure Database where
  version : String
  entries : Dictionary Feature.Key Record
deriving Inhabited

/-- The ways in which a JSON value is no database. -/
inductive DatabaseError where
  | notAnObject
  | sectionNotAnObject (kind : Feature.Kind)
  | entryNotAnObject (kind : Feature.Kind) (key : Text)
  | unknownStatus (kind : Feature.Kind) (key : Text) (status : Json)
  | notAYear (kind : Feature.Kind) (key : Text)

/-- The wording of an error. -/
def DatabaseError.message : DatabaseError → String
  | notAnObject => "Compatibility data must be a JSON object"
  | sectionNotAnObject kind => kind.sectionName ++ ": expected an object"
  | entryNotAnObject kind key =>
    kind.sectionName ++ "." ++ String.ofList key ++ ": expected an object"
  | unknownStatus kind key status =>
    kind.sectionName ++ "." ++ String.ofList key ++ ": unknown status " ++ status.spelled
  | notAYear kind key =>
    kind.sectionName ++ "." ++ String.ofList key ++ ": 'since' must be a year or null"

namespace Database

/-- The record of a feature, whose key may be given in letters of any case. -/
def get? (d : Database) (kind : Feature.Kind) (key : Text) : Option Record :=
  Dictionary.get? (kind, Text.lower key) d.entries

/-- Whether there is a record of a feature. -/
def contains (d : Database) (kind : Feature.Kind) (key : Text) : Bool := (d.get? kind key).isSome

/-- The number of records. -/
def size (d : Database) : Nat := d.entries.length

/-- The records in order. -/
def records (d : Database) : List Record := Dictionary.values d.entries

/-- A database as it is listed. -/
def describe (d : Database) : String :=
  "CompatibilityDatabase(version=" ++ Text.quoted d.version.toList ++ ", records="
    ++ toString d.size ++ ")"

/-- The database of a list of records. -/
def ofRecords (version : String) (records : List Record) : Database :=
  ⟨version, Dictionary.ofList (records.map fun r => ((r.kind, Text.lower r.key), r))⟩

/-! ## From JSON -/

/-- The record that an entry of a section spells. -/
def record (kind : Feature.Kind) (key : Text) (entry : Json) : Except DatabaseError Record := do
  let some members := entry.members? | throw (.entryNotAnObject kind key)
  let word := (Dictionary.get? "status" members).getD .null
  let some status := word.string?.bind Status.ofWord? | throw (.unknownStatus kind key word)
  match (Dictionary.get? "since" members).getD .null with
  | .null => return ⟨key, kind, status, none⟩
  | .int year => return ⟨key, kind, status, some year⟩
  | _ => throw (.notAYear kind key)

/-- The entries of the values of a property under their keys. -/
def valueEntries? (property : Text) (values : Json) : Option (List (Text × Json)) :=
  values.members?.map fun members =>
    members.map fun m => (Feature.propertyValueKey property m.1.toList, m.2)

/-- The entries of a section under their keys: those of property values are nested in a second
object. -/
def sectionEntries? (kind : Feature.Kind) (members : Dictionary String Json) :
    Option (List (Text × Json)) :=
  match kind with
  | .propertyValue => (members.mapM fun m => valueEntries? m.1.toList m.2).map List.flatten
  | _ => some (members.map fun m => (Text.lower m.1.toList, m.2))

/-- The records of the section of a kind, under their keys. -/
def sectionRecords (members : Dictionary String Json) (kind : Feature.Kind) :
    Except DatabaseError (List (Feature.Key × Record)) := do
  let members ← match Dictionary.get? kind.sectionName members with
    | none => pure []
    | some json => match json.members? with
      | some members => pure members
      | none => throw (.sectionNotAnObject kind)
  let some entries := sectionEntries? kind members | throw (.sectionNotAnObject kind)
  (Dictionary.ofList entries).mapM fun e => return ((kind, e.1), ← record kind e.1 e.2)

/-- The database that a JSON value spells. -/
def ofJson (json : Json) : Except DatabaseError Database := do
  let some members := json.members? | throw .notAnObject
  let sections ← Feature.Kind.all.mapM (sectionRecords members)
  let version := (Dictionary.get? "version" members).getD (.str "")
  return ⟨version.text, Dictionary.ofList sections.flatten⟩

end Database

end StyleAudit
