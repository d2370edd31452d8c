import StyleAudit.Text.Basic

/-!
# Files

All that a run knows of the files is a function that gives the content at a path, or why there is
none. A `Directory` is such a function held in memory: names of files and of directories, in which
a path is followed step by step. What lies outside of the directory is not known, except that it is
there.
-/

namespace StyleAudit.Command

/-- Why a file cannot be read. -/
inductive FileError where
  | missing
  | isDirectory
  | notDirectory
  | nameTooLong
deriving DecidableEq, Repr

/-- The word for why a file cannot be read. -/
def FileError.word : FileError → String
  | missing => "FileNotFoundError"
  | isDirectory => "IsADirectoryError"
  | notDirectory => "NotADirectoryError"
  | nameTooLong => "OSError"

/-- The files that can be read, by path. -/
abbrev Files := Text → Except FileError ByteArray

/-! ## Paths -/

/-- The parts of a path between its slashes. -/
def pathSteps : Text → List Text
  | [] => [[]]
  | c :: rest =>
    if c = '/' then [] :: pathSteps rest
    else match pathSteps rest with
      | step :: more => (c :: step) :: more
      | [] => [[c]]

/-- The length of a text in bytes. -/
def byteLength (t : Text) : Nat := (String.ofList t).utf8ByteSize

/-- A name of more than 255 bytes is too long for any file. -/
def isNameTooLong (step : Text) : Bool := 255 < byteLength step

/-- A path of 4096 bytes or more is too long as a whole. -/
def isPathTooLong (path : Text) : Bool := 4096 ≤ byteLength path

/-- Whether a step stays where it is. -/
def stays (step : Text) : Bool := step = [] || step = ['.']

/-- Whether a step leads to the directory around. -/
def leadsOut (step : Text) : Bool := step = ['.', '.']

/-! ## Directories -/

/-- What a name stands for. -/
inductive Entry where
  | file (content : ByteArray)
  | directory

/-- Entries by the names that lead to them, the last name first. Of several entries under the same
names the last one counts. -/
structure Directory where
  entries : List (List Text × Entry)

namespace Directory

/-- The entry at the end of some steps from a place, and the directories on the way to it. -/
def place (trail : List Text) (steps : List Text) (e : Entry) : List (List Text × Entry) :=
  match steps with
  | [] => [(trail, e)]
  | step :: rest =>
    let next := if stays step then trail else if leadsOut step then trail.drop 1 else step :: trail
    (trail, .directory) :: place next rest e

/-- The directory with entries at some paths. -/
def ofList (paths : List (Text × Entry)) : Directory :=
  ⟨paths.flatMap fun (path, e) => place [] (pathSteps path) e⟩

/-- The entry under some names; the directory itself has none. -/
def get? (d : Directory) (trail : List Text) : Option Entry :=
  if trail.isEmpty then some .directory
  else (d.entries.reverse.find? fun entry => entry.1 = trail).map Prod.snd

/-- What comes of following some steps outside of all that is known. -/
def outside : List Text → FileError
  | [] => .isDirectory
  | step :: rest =>
    if stays step || leadsOut step then outside rest
    else if isNameTooLong step then .nameTooLong
    else .missing

/-- The content at the end of some steps from a place. -/
def follow (d : Directory) (trail : List Text) (steps : List Text) : Except FileError ByteArray :=
  match d.get? trail, steps with
  | none, _ => .error .missing
  | some (.file content), [] => .ok content
  | some (.file _), _ :: _ => .error .notDirectory
  | some .directory, [] => .error .isDirectory
  | some .directory, step :: rest =>
    if stays step then d.follow trail rest
    else if leadsOut step then
      match trail with
      | [] => .error (outside rest)
      | _ :: around => d.follow around rest
    else if isNameTooLong step then .error .nameTooLong
    else d.follow (step :: trail) rest

/-- The files of a directory. -/
def files (d : Directory) : Files := fun path =>
  if path.isEmpty then .error .missing
  else if isPathTooLong path then .error .nameTooLong
  else if path.head? = some '/' then .error (outside (pathSteps path))
  else d.follow [] (pathSteps path)

end Directory

end StyleAudit.Command
