import StyleAudit.Audit.Configuration

/-!
# Validation of options

The validator with which the program is run. All that is wrong with the options is told at once:
field by field, then the names that are not known. The second spelling of a list beside the first
is such a name.
-/

namespace StyleAudit

namespace Issue

/-- The threshold is none of the words for a level. -/
def notALevel : Issue :=
  ⟨[.str "available", .str "literal['widely','newly']"], "literal_error"⟩

/-- The threshold is no year. -/
def notAYear : Issue := ⟨[.str "available", .str "int"], "int_type"⟩

/-- A list of names is no list. -/
def notAList (name : String) : Issue := ⟨[.str name], "frozen_set_type"⟩

/-- An item of a list of names is no string. -/
def notAString (name : String) (index : Nat) : Issue :=
  ⟨[.str name, .int index], "string_type"⟩

end Issue

namespace Configuration

/-- What is wrong with the items of a list, counted from an index. -/
def itemIssues (name : String) (index : Nat) : List Json → List Issue
  | [] => []
  | .str _ :: rest => itemIssues name (index + 1) rest
  | _ :: rest => .notAString name index :: itemIssues name (index + 1) rest

/-- The names in a list, and what is wrong with it. -/
def ListName.read (n : ListName) (options : Options) : List Text × List Issue :=
  match n.find? options with
  | none => ([], [])
  | some (name, .arr items) =>
    (items.filterMap fun item => item.string?.map String.toList, itemIssues name 0 items)
  | some (name, _) => ([], [.notAList name])

/-- The threshold, and what is wrong with it. -/
def readAvailable (options : Options) : Threshold × List Issue :=
  match Dictionary.get? availableName options with
  | none => (.widely, [])
  | some json => match Threshold.ofJson? json with
    | some t => (t, [])
    | none => (.widely, [.notALevel, .notAYear])

/-- Whether an option has a name that counts, that is, under which something is looked for. -/
def isKnown (options : Options) (name : String) : Bool :=
  name = availableName || listNames.any fun n =>
    (n.find? options).any fun found => found.1 = name

/-- The options whose names are not known, in the order given. -/
def unknownIssues (options : Options) : List Issue :=
  ((Dictionary.keys options).filter fun name => !isKnown options name).map .unknown

/-- All that is wrong with some options. -/
def issues (options : Options) : List Issue :=
  (readAvailable options).2 ++ (properties.read options).2 ++ (atRules.read options).2
    ++ (selectors.read options).2 ++ unknownIssues options

/-- The configuration that some options spell, or all that is wrong with them. -/
def ofOptions : Validator := fun options =>
  if (issues options).isEmpty then
    .ok ⟨(readAvailable options).1, (properties.read options).1, (atRules.read options).1,
      (selectors.read options).1⟩
  else .error (issues options)

/-- The configuration that a JSON value spells; null stands for no options. -/
def ofJson (json : Json) : Except ConfigurationError Configuration := ofJsonWith ofOptions json

end Configuration

end StyleAudit
